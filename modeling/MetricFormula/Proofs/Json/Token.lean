/-
  Proofs/Json/Token: strings and numbers of JSON texts, and that the readers take them.

  `Spelling` and `IsNumeral` say what the text of a string and of a numeral is without a
  reader.  A reader that stands in front of such a text takes all of it and leaves what comes
  after it, which for a numeral must not start with a character that goes on with it.

  What the writer of strings puts is one of the spellings of the string
  (`spells_flatMap_escapeChar`).
-/
import MetricFormula.Json.Basic
import MetricFormula.Proofs.Decimal.Text

set_option autoImplicit false

namespace MetricFormula.Json

open Decimal (AreDigits continuesNumeral)

/-! ## Readers in a row

What has been read is handed on, with the rest of the text. -/

section Readers

variable {α β : Type}

theorem ok_bind (a : α) (k : α → Except Problem β) : (Except.ok a >>= k) = k a := rfl

theorem pure_eq_ok (a : α) : (pure a : Except Problem α) = .ok a := rfl

end Readers

/-- A test that tells two characters apart. -/
theorem ne_of_test {p : Char → Bool} {c d : Char} (hc : p c = true) (hd : p d = false) :
    c ≠ d := by
  intro heq
  rw [heq, hd] at hc
  exact Bool.false_ne_true hc

/-! ## Blanks -/

/-- Nothing but blanks. -/
def AreBlanks (cs : List Char) : Prop := ∀ c ∈ cs, isBlank c = true

instance (cs : List Char) : Decidable (AreBlanks cs) :=
  decidable_of_iff (cs.all isBlank = true) List.all_eq_true

theorem AreBlanks.nil : AreBlanks [] := fun _ hc => absurd hc List.not_mem_nil

theorem skipBlanks_blanks_append {b : List Char} (hb : AreBlanks b) (cs : List Char) :
    skipBlanks (b ++ cs) = skipBlanks cs := by
  induction b with
  | nil => rfl
  | cons c b ih =>
      have hrest := ih fun d hd => hb d (List.mem_cons_of_mem c hd)
      simpa [skipBlanks, hb c List.mem_cons_self] using hrest

/-- Blanks are passed over up to the first other character. -/
theorem skipBlanks_append {b : List Char} (hb : AreBlanks b) {c : Char} (hc : isBlank c = false)
    (cs : List Char) : skipBlanks (b ++ c :: cs) = c :: cs := by
  rw [skipBlanks_blanks_append hb]
  simp [skipBlanks, hc]

theorem skipBlanks_blanks {b : List Char} (hb : AreBlanks b) : skipBlanks b = [] := by
  rw [← List.append_nil b, skipBlanks_blanks_append hb]
  rfl

/-! ## Strings -/

/-- A digit in base 16, in either case. -/
inductive HexDigit : Nat → Char → Prop
  | lower {k : Nat} : k < 16 → HexDigit k (Nat.digitChar k)
  | upper {k : Nat} : k < 16 → HexDigit k (Nat.digitChar k).toUpper

/-- Four digits in base 16, and their number. -/
inductive FourDigits : Nat → List Char → Prop
  | mk {w x y z : Nat} {a b c d : Char} :
      HexDigit w a → HexDigit x b → HexDigit y c → HexDigit z d →
        FourDigits (((w * 16 + x) * 16 + y) * 16 + z) [a, b, c, d]

/-- The letters that stand for a character after a backslash. -/
def letters : List (Char × Char) :=
  [('"', '"'), ('\\', '\\'), ('/', '/'), ('b', '\x08'), ('f', '\x0c'), ('n', '\n'), ('r', '\r'),
    ('t', '\t')]

/-- What follows a backslash, and the character that is meant.  Numbers have 16 bits: a
character above them is written as two surrogates. -/
inductive Escape : List Char → Char → Prop
  | letter {l c : Char} : (l, c) ∈ letters → Escape [l] c
  | number {c : Char} {ds : List Char} : FourDigits c.toNat ds → Escape ('u' :: ds) c
  | pair {c : Char} {ds es : List Char} :
      0x10000 ≤ c.toNat →
        FourDigits (0xD800 + (c.toNat - 0x10000) / 0x400) ds →
          FourDigits (0xDC00 + (c.toNat - 0x10000) % 0x400) es →
            Escape ('u' :: ds ++ '\\' :: 'u' :: es) c

/-- What may follow a backslash where no character has to be meant: the number can be that
of a surrogate alone. -/
inductive LooseEscape : List Char → Unit → Prop
  | letter {l c : Char} : (l, c) ∈ letters → LooseEscape [l] ()
  | number {n : Nat} {ds : List Char} : FourDigits n ds → LooseEscape ('u' :: ds) ()

section Spelling

variable {α : Type}

/-- The text of a string between its quotes, and what each piece of it stands for: a
character stands for itself unless it is a control character, a quote or a backslash. -/
inductive Spelling (plain : Char → α) (escaped : List Char → α → Prop) :
    List Char → List α → Prop
  | done : Spelling plain escaped [] []
  | plain {c : Char} {cs : List Char} {as : List α} :
      0x20 ≤ c.toNat → c ≠ '"' → c ≠ '\\' →
        Spelling plain escaped cs as → Spelling plain escaped (c :: cs) (plain c :: as)
  | escaped {e cs : List Char} {a : α} {as : List α} :
      escaped e a →
        Spelling plain escaped cs as → Spelling plain escaped ('\\' :: e ++ cs) (a :: as)

/-- A reader that knows the escapes takes a string up to its closing quote. -/
theorem stringWithin_append {plain : Char → α} {escaped : List Char → α → Prop}
    {reader : Step α}
    (hreader : ∀ e a rest, escaped e a → reader (e ++ rest) = .ok (a, rest))
    {cs : List Char} {as : List α} (h : Spelling plain escaped cs as) {n : Nat}
    (hn : cs.length < n) (rest : List Char) :
    stringWithin plain reader n (cs ++ '"' :: rest) = .ok (as, rest) := by
  induction h generalizing n with
  | done =>
      cases n with
      | zero => exact absurd hn (Nat.not_lt_zero _)
      | succ n => simp [stringWithin]
  | @plain c cs as hcontrol hquote hbackslash _ ih =>
      cases n with
      | zero => exact absurd hn (Nat.not_lt_zero _)
      | succ n =>
          have hrest := ih (Nat.lt_of_succ_lt_succ hn)
          rw [List.cons_append, stringWithin, if_neg hquote, if_neg hbackslash,
            if_neg (Nat.not_lt.mpr hcontrol), hrest]
          simp only [ok_bind, pure_eq_ok]
  | @escaped e cs a as he _ ih =>
      cases n with
      | zero => exact absurd hn (Nat.not_lt_zero _)
      | succ n =>
          have hrest := ih (n := n) (by simp at hn; omega)
          rw [List.cons_append, List.cons_append, stringWithin, if_neg (by decide), if_pos rfl,
            List.append_assoc, hreader e a _ he]
          simp only [ok_bind, hrest, pure_eq_ok]

end Spelling

/-- The text between the quotes spells the characters. -/
def Spells (body cs : List Char) : Prop := Spelling id Escape body cs

/-- The text between the quotes is that of a string, which need not spell characters. -/
def IsStringBody (body : List Char) : Prop :=
  ∃ units, Spelling (fun _ => ()) LooseEscape body units

/-- What spells characters is the text of a string: two surrogates are two escapes. -/
theorem Spells.isStringBody {body cs : List Char} (h : Spells body cs) : IsStringBody body := by
  induction h with
  | done => exact ⟨_, .done⟩
  | plain hcontrol hquote hbackslash _ ih =>
      obtain ⟨units, hunits⟩ := ih
      exact ⟨_, .plain hcontrol hquote hbackslash hunits⟩
  | escaped he _ ih =>
      obtain ⟨units, hunits⟩ := ih
      cases he with
      | letter hl => exact ⟨_, .escaped (.letter hl) hunits⟩
      | number hds => exact ⟨_, .escaped (.number hds) hunits⟩
      | pair _ hds hes =>
          have hsecond := Spelling.escaped (LooseEscape.number hes) hunits
          have hfirst := Spelling.escaped (LooseEscape.number hds) hsecond
          exact ⟨_, by simpa using hfirst⟩

/-! ### Escapes are read -/

theorem hexValue?_of_hexDigit {k : Nat} {c : Char} (h : HexDigit k c) : hexValue? c = some k := by
  have hlower : ∀ k < 16, hexValue? (Nat.digitChar k) = some k := by decide
  have hupper : ∀ k < 16, hexValue? (Nat.digitChar k).toUpper = some k := by decide
  cases h with
  | lower hk => exact hlower k hk
  | upper hk => exact hupper k hk

theorem fourHex_append {n : Nat} {ds : List Char} (h : FourDigits n ds) (rest : List Char) :
    fourHex (ds ++ rest) = .ok (n, rest) := by
  cases h with
  | mk ha hb hc hd =>
      simp only [List.cons_append, List.nil_append, fourHex, hexValue?_of_hexDigit ha,
        hexValue?_of_hexDigit hb, hexValue?_of_hexDigit hc, hexValue?_of_hexDigit hd]

theorem shortEscape?_of_mem {l c : Char} (h : (l, c) ∈ letters) : shortEscape? l = some c := by
  have hall : ∀ p ∈ letters, shortEscape? p.1 = some p.2 := by decide
  exact hall (l, c) h

/-- No character has the number of a surrogate. -/
theorem toNat_cases (c : Char) : c.toNat < 0xD800 ∨ 0xE000 ≤ c.toNat ∧ c.toNat < 0x110000 := by
  have hvalid := c.valid
  simp only [UInt32.isValidChar, Nat.isValidChar] at hvalid
  change c.toNat < 0xD800 ∨ 0xDFFF < c.toNat ∧ c.toNat < 0x110000 at hvalid
  omega

@[simp] theorem isLeadingSurrogate_toNat (c : Char) : isLeadingSurrogate c.toNat = false := by
  have hcases := toNat_cases c
  simp only [isLeadingSurrogate, Bool.and_eq_false_iff, decide_eq_false_iff_not]
  omega

@[simp] theorem isTrailingSurrogate_toNat (c : Char) : isTrailingSurrogate c.toNat = false := by
  have hcases := toNat_cases c
  simp only [isTrailingSurrogate, Bool.and_eq_false_iff, decide_eq_false_iff_not]
  omega

/-- A number that is not that of a surrogate is read as its character. -/
theorem numberedChar_append {c : Char} {ds : List Char} (h : FourDigits c.toNat ds)
    (rest : List Char) : numberedChar (ds ++ rest) = .ok (c, rest) := by
  rw [numberedChar, fourHex_append h]
  simp only [ok_bind, isLeadingSurrogate_toNat, isTrailingSurrogate_toNat, Bool.false_eq_true,
    if_false, Char.ofNat_toNat, pure_eq_ok]

/-- Two surrogates are read as one character. -/
theorem numberedChar_pair {lead trail : Nat} {ds es : List Char}
    (hlead : 0xD800 ≤ lead ∧ lead < 0xDC00) (htrail : 0xDC00 ≤ trail ∧ trail < 0xE000)
    (hds : FourDigits lead ds) (hes : FourDigits trail es) (rest : List Char) :
    numberedChar (ds ++ '\\' :: 'u' :: es ++ rest) =
      .ok (Char.ofNat (0x10000 + (lead - 0xD800) * 0x400 + (trail - 0xDC00)), rest) := by
  have hnot : isTrailingSurrogate lead = false := by
    simp only [isTrailingSurrogate, Bool.and_eq_false_iff, decide_eq_false_iff_not]
    omega
  have hfirst : isLeadingSurrogate lead = true := by
    simp only [isLeadingSurrogate, Bool.and_eq_true, decide_eq_true_eq]
    exact hlead
  have hsecond : isTrailingSurrogate trail = true := by
    simp only [isTrailingSurrogate, Bool.and_eq_true, decide_eq_true_eq]
    exact htrail
  rw [List.append_assoc, numberedChar, fourHex_append hds]
  simp only [ok_bind, hnot, hfirst, Bool.false_eq_true, if_false, if_true, List.cons_append,
    trailingSurrogate, fourHex_append hes, hsecond, pure_eq_ok]

/-- The numbers of the two surrogates give the character back. -/
theorem surrogates_toNat {c : Char} (hc : 0x10000 ≤ c.toNat) :
    0x10000 + (0xD800 + (c.toNat - 0x10000) / 0x400 - 0xD800) * 0x400 +
      (0xDC00 + (c.toNat - 0x10000) % 0x400 - 0xDC00) = c.toNat := by
  omega

theorem escape_append (e : List Char) (c : Char) (rest : List Char) (h : Escape e c) :
    escape (e ++ rest) = .ok (c, rest) := by
  have hu : shortEscape? 'u' = none := rfl
  cases h with
  | letter hl => simp only [List.cons_append, List.nil_append, escape, shortEscape?_of_mem hl]
  | number hds =>
      simp only [List.cons_append, escape, hu, if_true]
      exact numberedChar_append hds rest
  | pair hc hds hes =>
      simp only [List.cons_append, escape, hu, if_true]
      have hcases := toNat_cases c
      rw [numberedChar_pair (by omega) (by omega) hds hes, surrogates_toNat hc, Char.ofNat_toNat]

theorem skipEscape_append (e : List Char) (a : Unit) (rest : List Char) (h : LooseEscape e a) :
    skipEscape (e ++ rest) = .ok (a, rest) := by
  have hu : shortEscape? 'u' = none := rfl
  cases h with
  | letter hl => simp only [List.cons_append, List.nil_append, skipEscape, shortEscape?_of_mem hl]
  | number hds =>
      simp only [List.cons_append, skipEscape, hu, if_true, fourHex_append hds, ok_bind, pure_eq_ok]

/-- A string is read as what its text spells. -/
theorem string_append {body cs : List Char} (h : Spells body cs) (rest : List Char) :
    string (body ++ '"' :: rest) = .ok (String.ofList cs, rest) := by
  have hlength : body.length < (body ++ '"' :: rest).length + 1 := by
    rw [List.length_append]
    omega
  simp only [string, stringWithin_append escape_append h hlength, ok_bind, pure_eq_ok]

theorem skipString_append {body : List Char} (h : IsStringBody body) (rest : List Char) :
    skipString (body ++ '"' :: rest) = .ok ((), rest) := by
  obtain ⟨units, hunits⟩ := h
  have hlength : body.length < (body ++ '"' :: rest).length + 1 := by
    rw [List.length_append]
    omega
  simp only [skipString, stringWithin_append skipEscape_append hunits hlength, ok_bind, pure_eq_ok]

/-! ### Strings as they are written -/

/-- The characters that are written with a backslash and a letter. -/
def lettered : List Char := ['"', '\\', '\x08', '\t', '\n', '\x0c', '\r']

theorem escapeChar_of_mem {c : Char} (h : c ∈ lettered) :
    ∃ l, (l, c) ∈ letters ∧ escapeChar c = ['\\', l] := by
  have hall : (lettered.all fun c =>
      letters.any fun p => p.2 = c ∧ escapeChar c = ['\\', p.1]) = true := by
    decide
  obtain ⟨⟨l, d⟩, hl, hd⟩ := List.any_eq_true.mp (List.all_eq_true.mp hall c h)
  obtain ⟨rfl, htext⟩ := of_decide_eq_true hd
  exact ⟨l, hl, htext⟩

theorem escapeChar_of_not_mem {c : Char} (h : c ∉ lettered) :
    escapeChar c = if c.toNat < 0x20 then
      ['\\', 'u', '0', '0', Nat.digitChar (c.toNat / 16), Nat.digitChar (c.toNat % 16)]
    else [c] := by
  simp only [lettered, List.mem_cons, List.not_mem_nil, or_false, not_or] at h
  simp only [escapeChar, h, if_false]

theorem fourDigits_control {n : Nat} (h : n < 0x20) :
    FourDigits n ['0', '0', Nat.digitChar (n / 16), Nat.digitChar (n % 16)] := by
  have hzero : HexDigit 0 '0' := .lower (by decide)
  have hdigits : FourDigits (((0 * 16 + 0) * 16 + n / 16) * 16 + n % 16)
      ['0', '0', Nat.digitChar (n / 16), Nat.digitChar (n % 16)] :=
    .mk hzero hzero (.lower (by omega)) (.lower (by omega))
  have hnumber : ((0 * 16 + 0) * 16 + n / 16) * 16 + n % 16 = n := by omega
  rwa [hnumber] at hdigits

/-- A character as it is written spells itself. -/
theorem spells_escapeChar (c : Char) {body cs : List Char} (h : Spells body cs) :
    Spells (escapeChar c ++ body) (c :: cs) := by
  by_cases hmem : c ∈ lettered
  · obtain ⟨l, hl, htext⟩ := escapeChar_of_mem hmem
    rw [htext]
    exact .escaped (.letter hl) h
  · rw [escapeChar_of_not_mem hmem]
    by_cases hcontrol : c.toNat < 0x20
    · rw [if_pos hcontrol]
      exact .escaped (.number (fourDigits_control hcontrol)) h
    · rw [if_neg hcontrol]
      refine .plain (Nat.not_lt.mp hcontrol) ?_ ?_ h
      · rintro rfl
        exact hmem (by decide)
      · rintro rfl
        exact hmem (by decide)

theorem spells_flatMap_escapeChar (cs : List Char) : Spells (cs.flatMap escapeChar) cs := by
  induction cs with
  | nil => exact .done
  | cons c cs ih => exact spells_escapeChar c ih

/-! ## Numbers -/

/-- A numeral as JSON has them: there is no superfluous zero in front, and a digit on each
side of a point. -/
structure IsNumeral (n : Decimal.Numeral) : Prop where
  wellFormed : n.WellFormed
  whole : n.whole = ['0'] ∨ ∃ d ds, n.whole = d :: ds ∧ d ≠ '0'
  fraction : n.fraction ≠ some []

/-- A numeral with or without a minus. -/
def IsNumber (cs : List Char) : Prop := ∃ n, IsNumeral n ∧ (cs = n.text ∨ cs = '-' :: n.text)

/-- What comes after a numeral does not go on with it. -/
def Ends (rest : List Char) : Prop := ∀ c, rest.head? = some c → continuesNumeral c = false

theorem Ends.not_isDigit {rest : List Char} (h : Ends rest) {c : Char}
    (hc : rest.head? = some c) : c.isDigit = false ∧ c ≠ '.' ∧ c ≠ 'e' ∧ c ≠ 'E' := by
  have hcontinues := h c hc
  simp only [continuesNumeral, Bool.or_eq_false_iff, beq_eq_false_iff_ne] at hcontinues
  exact ⟨hcontinues.1.1.1, hcontinues.1.1.2, hcontinues.1.2, hcontinues.2⟩

theorem IsNumeral.exists_head {n : Decimal.Numeral} (h : IsNumeral n) :
    ∃ d ds, n.whole = d :: ds ∧ d.isDigit = true := by
  rcases h.whole with hzero | ⟨d, ds, hds, -⟩
  · exact ⟨'0', [], hzero, rfl⟩
  · exact ⟨d, ds, hds, h.wellFormed.whole d (by rw [hds]; exact List.mem_cons_self)⟩

section Numerals

variable (short : Problem)

theorem someDigits_append {ds rest : List Char} (hds : AreDigits ds) (hne : ds ≠ [])
    (hrest : ∀ c, rest.head? = some c → c.isDigit = false) :
    someDigits short (ds ++ rest) = .ok (ds, rest) := by
  have hdigits := Decimal.digits_append_of_head hds hrest
  have hread : Decimal.digits? (ds ++ rest) = some (Decimal.digits (ds ++ rest)) :=
    Decimal.digits?_eq_some (by rwa [hdigits])
  rw [someDigits, hread, hdigits]

theorem wholeDigits_append {n : Decimal.Numeral} (hn : IsNumeral n) {rest : List Char}
    (hrest : ∀ c, rest.head? = some c → c.isDigit = false) :
    wholeDigits short (n.whole ++ rest) = .ok (n.whole, rest) := by
  rcases hn.whole with hzero | ⟨d, ds, hds, hd⟩
  · have hnil : AreDigits [] := fun _ hc => absurd hc List.not_mem_nil
    have hnone : (Decimal.digits rest).1 = [] := by
      rw [← List.nil_append rest, Decimal.digits_append_of_head hnil hrest]
    simp [hzero, wholeDigits, hnone]
  · have hread := someDigits_append short hn.wellFormed.whole (by simp [hds]) hrest
    rw [hds] at hread ⊢
    unfold wholeDigits
    split
    · rename_i heq
      exact absurd (List.cons.inj heq).1 hd
    · exact hread

theorem fractionDigits_append {fraction : Option (List Char)}
    (hfraction : ∀ ds, fraction = some ds → AreDigits ds ∧ ds ≠ []) {rest : List Char}
    (hrest : ∀ c, rest.head? = some c → c.isDigit = false ∧ c ≠ '.') :
    fractionDigits short (fraction.elim [] ('.' :: ·) ++ rest) = .ok (fraction, rest) := by
  cases fraction with
  | none =>
      unfold fractionDigits
      split
      · rename_i heq
        exact absurd rfl (hrest '.' (by simpa using congrArg List.head? heq)).2
      · rfl
  | some ds =>
      obtain ⟨hds, hne⟩ := hfraction ds rfl
      simp only [Option.elim_some, List.cons_append, fractionDigits,
        someDigits_append short hds hne fun c hc => (hrest c hc).1, ok_bind, pure_eq_ok]

theorem exponentPart_append {exponent : Option Decimal.Exponent}
    (hexponent : ∀ x, exponent = some x → x.WellFormed) {rest : List Char} (hrest : Ends rest) :
    exponentPart short (exponent.elim [] Decimal.Exponent.text ++ rest) =
      .ok (exponent, rest) := by
  cases exponent with
  | none =>
      cases rest with
      | nil => rfl
      | cons c rest =>
          have hc := hrest.not_isDigit (List.head?_cons)
          simp [exponentPart, hc.2.2]
  | some x =>
      have hx := hexponent x rfl
      have htext : x.text ++ rest = x.letter :: (x.sign ++ (x.digits ++ rest)) := by
        simp [Decimal.Exponent.text]
      rw [Option.elim_some, htext, exponentPart, if_pos hx.letter,
        Decimal.sign_append_of_digits hx.sign hx.digits hx.nonempty,
        someDigits_append short hx.digits hx.nonempty fun c hc => (hrest.not_isDigit hc).1]
      simp only [ok_bind, pure_eq_ok]

/-- A numeral is read to its end. -/
theorem numeral_append {n : Decimal.Numeral} (hn : IsNumeral n) {rest : List Char}
    (hrest : Ends rest) : numeral short (n.text ++ rest) = .ok (n, rest) := by
  have hexponent := exponentPart_append short hn.wellFormed.exponent hrest
  -- Neither the fraction nor the digits in front of it go on with what comes after them.
  have hafter : ∀ c, (n.exponent.elim [] Decimal.Exponent.text ++ rest).head? = some c →
      c.isDigit = false ∧ c ≠ '.' := by
    intro c hc
    cases hexp : n.exponent with
    | none =>
        rw [hexp] at hc
        exact ⟨(hrest.not_isDigit hc).1, (hrest.not_isDigit hc).2.1⟩
    | some x =>
        rw [hexp] at hc
        exact Decimal.Exponent.head_text (hn.wellFormed.exponent x hexp) rest c hc
  have hdigits : ∀ ds, n.fraction = some ds → AreDigits ds ∧ ds ≠ [] := by
    intro ds hds
    refine ⟨hn.wellFormed.fraction ds hds, ?_⟩
    rintro rfl
    exact hn.fraction hds
  have hfraction := fractionDigits_append short hdigits hafter
  have hpoint : ∀ c, (n.fraction.elim [] ('.' :: ·) ++
      (n.exponent.elim [] Decimal.Exponent.text ++ rest)).head? = some c → c.isDigit = false := by
    intro c hc
    cases hfrac : n.fraction with
    | none =>
        rw [hfrac] at hc
        exact (hafter c hc).1
    | some ds =>
        rw [hfrac] at hc
        rw [← Option.some.inj hc]
        rfl
  have hwhole := wholeDigits_append short hn hpoint
  rw [numeral, Decimal.Numeral.text, List.append_assoc, List.append_assoc, hwhole]
  simp only [ok_bind, hfraction, hexponent, pure_eq_ok]

end Numerals

/-- A number is passed over to its end. -/
theorem skipNumber_append {cs : List Char} (h : IsNumber cs) {rest : List Char}
    (hrest : Ends rest) : skipNumber (cs ++ rest) = .ok ((), rest) := by
  obtain ⟨n, hn, rfl | rfl⟩ := h
  · obtain ⟨d, ds, hds, hd⟩ := hn.exists_head
    have hread := numeral_append .notJson hn hrest
    unfold skipNumber
    split
    · rename_i heq
      simp only [Decimal.Numeral.text, hds, List.cons_append, List.cons.injEq] at heq
      exact absurd heq.1 (ne_of_test hd rfl)
    · simp only [hread, ok_bind, pure_eq_ok]
  · simp only [List.cons_append, skipNumber, numeral_append .notJson hn hrest, ok_bind, pure_eq_ok]

/-- Digits whose number has 64 bits are read as this number. -/
theorem number_append {ds : List Char} (hds : IsNumeral ⟨ds, none, none⟩)
    (hfits : Decimal.natural ds < 2 ^ 64) {rest : List Char} (hrest : Ends rest) :
    number (ds ++ rest) = .ok (some (Decimal.natural ds), rest) := by
  have htext : (⟨ds, none, none⟩ : Decimal.Numeral).text = ds := by
    simp [Decimal.Numeral.text]
  have hread := numeral_append .tooShort hds hrest
  rw [htext] at hread
  obtain ⟨d, es, rfl, hd⟩ := hds.exists_head
  unfold number
  split
  · rename_i heq
    exact absurd (List.cons.inj heq).1 (ne_of_test hd rfl)
  · rw [hread]
    exact if_pos ⟨rfl, rfl, hfits⟩

/-- A whole number is written without superfluous zeros. -/
theorem head?_toDigits {n : Nat} (hn : n ≠ 0) : (Nat.toDigits 10 n).head? ≠ some '0' := by
  induction n using Nat.strongRecOn with
  | ind n ih =>
      by_cases hlt : n < 10
      · simpa [Nat.toDigits_of_lt_base hlt] using hn
      · have hhigh := ih (n / 10) (by omega) (by omega)
        cases hdigits : Nat.toDigits 10 (n / 10) with
        | nil => exact absurd hdigits Nat.toDigits_ne_nil
        | cons d ds =>
            rw [hdigits] at hhigh
            rw [Nat.toDigits_of_base_le (by decide) (by omega), hdigits]
            exact hhigh

theorem isNumeral_toDigits (n : Nat) : IsNumeral ⟨Nat.toDigits 10 n, none, none⟩ where
  wellFormed := by
    refine ⟨Decimal.areDigits_toDigits n, ?_, Or.inl Nat.toDigits_ne_nil, ?_⟩
    · intro ds hds
      cases hds
    · intro x hx
      cases hx
  whole := by
    cases hdigits : Nat.toDigits 10 n with
    | nil => exact absurd hdigits Nat.toDigits_ne_nil
    | cons d ds =>
        by_cases hn : n = 0
        · left
          rw [← hdigits, hn, Nat.toDigits_zero]
        · right
          have hhead := head?_toDigits hn
          rw [hdigits] at hhead
          exact ⟨d, ds, rfl, fun h => hhead (congrArg some h)⟩
  fraction := by simp

end MetricFormula.Json
