/-
  Proofs/Decimal/Numeral: the scanner splits off the longest numeral.

  `Numeral.WellFormed` says what a numeral is without a scanner.  What `scan?` reads
  is one (`wellFormed_of_scan?`), and no longer one stands at the front of the text
  (`le_of_scan?`); where any stands there, `scan?` reads one (`exists_scan?`), and it is
  that one if no character of numerals follows (`scan?_text_append`).
-/
import MetricFormula.Decimal.Numeral

set_option autoImplicit false

namespace MetricFormula.Decimal

/-! ## Well-formed numerals -/

/-- Nothing but decimal digits. -/
def AreDigits (ds : List Char) : Prop := ∀ c ∈ ds, c.isDigit = true

/-- The letter `e`, an optional sign, and at least one digit. -/
structure Exponent.WellFormed (x : Exponent) : Prop where
  letter : x.letter = 'e' ∨ x.letter = 'E'
  sign : x.sign = [] ∨ x.sign = ['+'] ∨ x.sign = ['-']
  digits : AreDigits x.digits
  nonempty : x.digits ≠ []

/-- Digits, an optional point with digits after it, and an optional exponent; there
is a digit before the point or after it. -/
structure Numeral.WellFormed (n : Numeral) : Prop where
  whole : AreDigits n.whole
  fraction : ∀ ds, n.fraction = some ds → AreDigits ds
  nonempty : n.whole ≠ [] ∨ ∃ ds, n.fraction = some ds ∧ ds ≠ []
  exponent : ∀ x, n.exponent = some x → x.WellFormed

/-- The characters that numerals are written with. -/
def isNumeralChar (c : Char) : Bool :=
  c.isDigit || c == '.' || c == 'e' || c == 'E' || c == '+' || c == '-'

/-- The characters by which a numeral can go on where it could also end. -/
def continuesNumeral (c : Char) : Bool :=
  c.isDigit || c == '.' || c == 'e' || c == 'E'

theorem Exponent.isNumeralChar_of_mem {x : Exponent} (hx : x.WellFormed) {c : Char}
    (hc : c ∈ x.text) : isNumeralChar c = true := by
  simp only [text, List.cons_append, List.mem_cons, List.mem_append] at hc
  rcases hc with rfl | hc | hc
  · rcases hx.letter with h | h <;> rw [h] <;> decide
  · rcases hx.sign with h | h | h <;> rw [h] at hc
    · simp at hc
    · rw [List.mem_singleton.mp hc]
      decide
    · rw [List.mem_singleton.mp hc]
      decide
  · simp [isNumeralChar, hx.digits c hc]

theorem Numeral.isNumeralChar_of_mem {n : Numeral} (hn : n.WellFormed) {c : Char}
    (hc : c ∈ n.text) : isNumeralChar c = true := by
  obtain ⟨whole, fraction, exponent⟩ := n
  rw [text, List.mem_append, List.mem_append] at hc
  rcases hc with (hc | hc) | hc
  · simp [isNumeralChar, hn.whole c hc]
  · cases fraction with
    | none => simp at hc
    | some ds =>
        rcases List.mem_cons.mp hc with rfl | hc
        · decide
        · simp [isNumeralChar, hn.fraction ds rfl c hc]
  · cases exponent with
    | none => simp at hc
    | some x => exact Exponent.isNumeralChar_of_mem (hn.exponent x rfl) hc

/-! ## Runs of digits -/

theorem areDigits_digits (cs : List Char) : AreDigits (digits cs).1 := by
  intro c hc
  induction cs with
  | nil => simp [digits] at hc
  | cons d cs ih =>
      by_cases hd : d.isDigit = true
      · simp only [digits, List.takeWhile_cons, hd, if_true, List.mem_cons] at hc
        rcases hc with rfl | hc
        · exact hd
        · exact ih hc
      · simp [digits, hd] at hc

/-- Digits are read to the end of the run. -/
theorem digits_append_of_head {ds tail : List Char} (hds : AreDigits ds)
    (htail : ∀ c, tail.head? = some c → c.isDigit = false) : digits (ds ++ tail) = (ds, tail) := by
  induction ds with
  | nil =>
      cases tail with
      | nil => rfl
      | cons c tail => simp [digits, htail c rfl]
  | cons d ds ih =>
      have hd := hds d List.mem_cons_self
      have hrest := ih fun c hc => hds c (List.mem_cons_of_mem d hc)
      simp only [digits, Prod.mk.injEq] at hrest
      simp [digits, hd, hrest]

theorem length_le_digits {ds : List Char} (hds : AreDigits ds) (tail : List Char) :
    ds.length ≤ (digits (ds ++ tail)).1.length := by
  induction ds with
  | nil => simp
  | cons d ds ih =>
      have hd := hds d List.mem_cons_self
      have hrest := ih fun c hc => hds c (List.mem_cons_of_mem d hc)
      simp only [digits] at hrest
      simpa [digits, hd] using hrest

theorem digits?_eq_some {cs : List Char} (h : (digits cs).1 ≠ []) :
    digits? cs = some (digits cs) := by
  unfold digits?
  rw [if_neg (by simpa using h)]

theorem areDigits_of_digits? {cs read rest : List Char} (h : digits? cs = some (read, rest)) :
    AreDigits read := by
  have hread : read = (digits cs).1 := by
    unfold digits? at h
    split at h
    · simp at h
    · rw [Option.some.inj h]
  rw [hread]
  exact areDigits_digits cs

/-! ## Exponents -/

theorem sign_eq_or (cs : List Char) :
    (Decimal.sign cs).1 = [] ∨ (Decimal.sign cs).1 = ['+'] ∨ (Decimal.sign cs).1 = ['-'] := by
  unfold Decimal.sign
  split <;> simp

/-- Where another character comes first, there is no sign. -/
theorem sign_eq_nil {c : Char} (hplus : c ≠ '+') (hminus : c ≠ '-') (cs : List Char) :
    Decimal.sign (c :: cs) = ([], c :: cs) := by
  unfold Decimal.sign
  split
  · rename_i heq
    exact absurd (List.cons.inj heq).1 hplus
  · rename_i heq
    exact absurd (List.cons.inj heq).1 hminus
  · rfl

/-- A sign in front of digits is read whole. -/
theorem sign_append_of_digits {s ds : List Char} (hs : s = [] ∨ s = ['+'] ∨ s = ['-'])
    (hds : AreDigits ds) (hne : ds ≠ []) (tail : List Char) :
    Decimal.sign (s ++ (ds ++ tail)) = (s, ds ++ tail) := by
  rcases hs with rfl | rfl | rfl
  · cases ds with
    | nil => exact absurd rfl hne
    | cons d ds =>
        have hd := hds d List.mem_cons_self
        apply sign_eq_nil
        · rintro rfl
          simp at hd
        · rintro rfl
          simp at hd
  · rfl
  · rfl

theorem Exponent.wellFormed_of_scan? {cs rest : List Char} {x : Exponent}
    (h : Exponent.scan? cs = some (x, rest)) : x.WellFormed := by
  cases cs with
  | nil => simp [scan?] at h
  | cons e cs =>
      simp only [scan?] at h
      split at h
      · rename_i he
        split at h
        · rename_i ds tail hds
          simp only [Option.some.injEq, Prod.mk.injEq] at h
          rw [← h.1]
          refine ⟨?_, sign_eq_or cs, areDigits_of_digits? hds, digits?_ne_nil hds⟩
          simpa using he
        · simp at h
      · simp at h

/-- Where an exponent stands, one that is no shorter is read. -/
theorem Exponent.exists_scan? {x : Exponent} (hx : x.WellFormed) (rest : List Char) :
    ∃ y tail, Exponent.scan? (x.text ++ rest) = some (y, tail) ∧
      x.text.length ≤ y.text.length := by
  have hletter : (x.letter == 'e' || x.letter == 'E') = true := by simpa using hx.letter
  have hsign := sign_append_of_digits hx.sign hx.digits hx.nonempty rest
  have hlen := length_le_digits hx.digits rest
  have hne : (Decimal.digits (x.digits ++ rest)).1 ≠ [] := by
    intro h0
    rw [h0] at hlen
    exact hx.nonempty (List.eq_nil_of_length_eq_zero (Nat.le_zero.mp hlen))
  refine ⟨⟨x.letter, x.sign, (Decimal.digits (x.digits ++ rest)).1⟩,
    (Decimal.digits (x.digits ++ rest)).2, ?_, ?_⟩
  · have htext : x.text ++ rest = x.letter :: (x.sign ++ (x.digits ++ rest)) := by
      simp [text]
    rw [htext]
    simp only [scan?, hletter, if_true, hsign, digits?_eq_some hne]
  · simp [text, hlen]

/-- The letter of an exponent is neither a digit nor a point. -/
theorem Exponent.head_text {x : Exponent} (hx : x.WellFormed) (rest : List Char) (c : Char)
    (hc : (x.text ++ rest).head? = some c) : c.isDigit = false ∧ c ≠ '.' := by
  have hletter : c = x.letter := by simpa [text] using hc.symm
  rcases hx.letter with h | h <;> rw [hletter, h] <;> decide

/-- Whether an exponent stands there or not, what is read is no shorter. -/
theorem Exponent.length_le_scan {e : Option Exponent} (he : ∀ x, e = some x → x.WellFormed)
    (rest : List Char) : (e.elim [] Exponent.text).length ≤
      ((Exponent.scan (e.elim [] Exponent.text ++ rest)).1.elim [] Exponent.text).length := by
  cases e with
  | none => exact Nat.zero_le _
  | some x =>
      obtain ⟨y, tail, hscan, hle⟩ := Exponent.exists_scan? (he x rfl) rest
      simp only [Exponent.scan, Option.elim_some, hscan]
      exact hle

/-! ## Numerals -/

namespace Numeral

theorem fraction?_wellFormed {whole cs rest : List Char} {fraction : Option (List Char)}
    (h : fraction? whole cs = some (fraction, rest)) :
    (∀ ds, fraction = some ds → AreDigits ds) ∧
      (whole ≠ [] ∨ ∃ ds, fraction = some ds ∧ ds ≠ []) := by
  unfold fraction? at h
  split at h
  · rename_i cs
    split at h
    · simp at h
    · rename_i hne
      simp only [Option.some.injEq, Prod.mk.injEq] at h
      rw [← h.1]
      refine ⟨fun ds hds => Option.some.inj hds ▸ areDigits_digits cs, ?_⟩
      by_cases hw : whole = []
      · right
        exact ⟨_, rfl, fun h0 => hne (by rw [hw, h0]; rfl)⟩
      · exact Or.inl hw
  · split at h
    · simp at h
    · rename_i hw
      simp only [Option.some.injEq, Prod.mk.injEq] at h
      rw [← h.1]
      exact ⟨by simp, Or.inl (by simpa using hw)⟩

/-- What is read is a numeral. -/
theorem wellFormed_of_scan? {cs rest : List Char} {n : Numeral}
    (h : scan? cs = some (n, rest)) : n.WellFormed := by
  unfold scan? at h
  split at h
  · rename_i fraction tail hf
    simp only [Option.some.injEq, Prod.mk.injEq] at h
    obtain ⟨hfraction, hne⟩ := fraction?_wellFormed hf
    rw [← h.1]
    refine ⟨areDigits_digits cs, hfraction, hne, ?_⟩
    intro x hx
    dsimp only at hx
    unfold Exponent.scan at hx
    split at hx
    · rename_i y rest' hy
      rw [← Option.some.inj hx]
      exact Exponent.wellFormed_of_scan? hy
    · simp at hx
  · simp at h

theorem scan?_eq_some {cs tail : List Char} {fraction : Option (List Char)}
    (h : fraction? (digits cs).1 (digits cs).2 = some (fraction, tail)) :
    scan? cs = some (⟨(digits cs).1, fraction, (Exponent.scan tail).1⟩,
      (Exponent.scan tail).2) := by
  unfold scan?
  rw [h]

/-- Where digits stand, they are read with what may follow them. -/
theorem exists_fraction? {whole : List Char} (hne : whole ≠ []) (cs : List Char) :
    ∃ fraction tail, fraction? whole cs = some (fraction, tail) := by
  unfold fraction?
  split
  · rw [if_neg (by simp [hne])]
    exact ⟨_, _, rfl⟩
  · rw [if_neg (by simpa using hne)]
    exact ⟨_, _, rfl⟩

/-- Where an exponent follows digits, there is no fraction. -/
theorem fraction?_exponent {whole : List Char} (hne : whole ≠ []) {x : Exponent}
    (hx : x.WellFormed) (rest : List Char) :
    fraction? whole (x.text ++ rest) = some (none, x.text ++ rest) := by
  unfold fraction?
  split
  · rename_i heq
    exact absurd rfl (Exponent.head_text hx rest '.' (by rw [heq]; rfl)).2
  · rw [if_neg (by simpa using hne)]

/-- A point is read with the digits after it, if there is a digit on either side. -/
theorem fraction?_point {whole cs : List Char} (h : whole ≠ [] ∨ (digits cs).1 ≠ []) :
    fraction? whole ('.' :: cs) = some (some (digits cs).1, (digits cs).2) := by
  simp only [fraction?]
  rw [if_neg]
  rw [Bool.and_eq_true, List.isEmpty_iff, List.isEmpty_iff]
  rintro ⟨hw, hd⟩
  rcases h with h | h
  · exact h hw
  · exact h hd

/-- A numeral without a point is read, or a longer one is. -/
theorem exists_scan?_whole {whole : List Char} {exponent : Option Exponent}
    (hwhole : AreDigits whole) (hne : whole ≠ [])
    (hexponent : ∀ x, exponent = some x → x.WellFormed) (rest : List Char) :
    ∃ m tail, scan? (whole ++ (exponent.elim [] Exponent.text ++ rest)) = some (m, tail) ∧
      whole.length + (exponent.elim [] Exponent.text).length ≤ m.text.length := by
  cases exponent with
  | none =>
      -- The run of digits may go on into the rest.
      rw [Option.elim_none, List.nil_append]
      have hlen := length_le_digits hwhole rest
      have hne' : (digits (whole ++ rest)).1 ≠ [] := by
        intro h0
        rw [h0] at hlen
        exact hne (List.eq_nil_of_length_eq_zero (Nat.le_zero.mp hlen))
      obtain ⟨fraction, tail, hf⟩ := exists_fraction? hne' (digits (whole ++ rest)).2
      refine ⟨_, _, scan?_eq_some hf, ?_⟩
      simp only [text, List.length_nil, List.length_append]
      omega
  | some x =>
      have hx := hexponent x rfl
      have hdigits := digits_append_of_head hwhole fun c hc => (Exponent.head_text hx rest c hc).1
      have hlonger := Exponent.length_le_scan hexponent rest
      rw [Option.elim_some] at hlonger ⊢
      have hf := fraction?_exponent hne hx rest
      refine ⟨_, _, scan?_eq_some (by rw [hdigits]; exact hf), ?_⟩
      rw [hdigits]
      simp only [text, Option.elim_none, List.append_nil, List.length_append]
      omega

/-- A numeral with a point is read, or a longer one is. -/
theorem exists_scan?_point {whole ds : List Char} {exponent : Option Exponent}
    (hwhole : AreDigits whole) (hds : AreDigits ds) (hne : whole ≠ [] ∨ ds ≠ [])
    (hexponent : ∀ x, exponent = some x → x.WellFormed) (rest : List Char) :
    ∃ m tail,
      scan? (whole ++ '.' :: (ds ++ (exponent.elim [] Exponent.text ++ rest))) = some (m, tail) ∧
      whole.length + (ds.length + 1) + (exponent.elim [] Exponent.text).length ≤
        m.text.length := by
  have hpoint : ∀ c, ('.' :: (ds ++ (exponent.elim [] Exponent.text ++ rest))).head? = some c →
      c.isDigit = false := by
    intro c hc
    rw [← Option.some.inj hc]
    decide
  have hdigits := digits_append_of_head hwhole hpoint
  have hlen := length_le_digits hds (exponent.elim [] Exponent.text ++ rest)
  have hlonger := Exponent.length_le_scan hexponent rest
  have hne' : whole ≠ [] ∨ (digits (ds ++ (exponent.elim [] Exponent.text ++ rest))).1 ≠ [] := by
    refine hne.imp id ?_
    intro h h0
    rw [h0] at hlen
    exact h (List.eq_nil_of_length_eq_zero (Nat.le_zero.mp hlen))
  have hf := fraction?_point hne'
  refine ⟨_, _, scan?_eq_some (by rw [hdigits]; exact hf), ?_⟩
  rw [hdigits]
  simp only [text, Option.elim_some, List.length_append, List.length_cons]
  cases exponent with
  | none =>
      simp only [Option.elim_none, List.nil_append, List.length_nil] at hlen ⊢
      omega
  | some x =>
      have hdigits' := digits_append_of_head hds fun c hc =>
        (Exponent.head_text (hexponent x rfl) rest c hc).1
      rw [Option.elim_some] at hlonger ⊢
      rw [hdigits']
      dsimp only
      omega

/-- A numeral that stands at the front of a text is read, or a longer one is. -/
theorem exists_scan? {n : Numeral} (hn : n.WellFormed) (rest : List Char) :
    ∃ m tail, scan? (n.text ++ rest) = some (m, tail) ∧ n.text.length ≤ m.text.length := by
  obtain ⟨whole, fraction, exponent⟩ := n
  cases fraction with
  | none =>
      have hne : whole ≠ [] := by
        rcases hn.nonempty with h | ⟨ds, hds, _⟩
        · exact h
        · simp at hds
      obtain ⟨m, tail, hscan, hle⟩ := exists_scan?_whole hn.whole hne hn.exponent rest
      refine ⟨m, tail, ?_, ?_⟩
      · simpa [text] using hscan
      · simpa [text] using hle
  | some ds =>
      have hne : whole ≠ [] ∨ ds ≠ [] := by
        refine hn.nonempty.imp id ?_
        rintro ⟨ds', hds', h⟩
        rwa [Option.some.inj hds']
      obtain ⟨m, tail, hscan, hle⟩ :=
        exists_scan?_point hn.whole (hn.fraction ds rfl) hne hn.exponent rest
      refine ⟨m, tail, ?_, ?_⟩
      · simpa [text] using hscan
      · have hlen : (text ⟨whole, some ds, exponent⟩).length =
            whole.length + (ds.length + 1) + (exponent.elim [] Exponent.text).length := by
          simp only [text, Option.elim_some, List.length_append, List.length_cons]
        rwa [hlen]

/-- No longer numeral stands at the front of the text than the one that is read. -/
theorem le_of_scan? {cs rest : List Char} {m : Numeral} (h : scan? cs = some (m, rest))
    {n : Numeral} {tail : List Char} (hn : n.WellFormed) (hcs : n.text ++ tail = cs) :
    n.text.length ≤ m.text.length := by
  obtain ⟨m', tail', hscan, hle⟩ := exists_scan? hn tail
  rw [hcs, h] at hscan
  obtain ⟨rfl, _⟩ := Prod.mk.inj (Option.some.inj hscan)
  exact hle

end Numeral

/-! ## Numerals that end where their characters do -/

/-- An exponent that no further digit follows is split off whole; where nothing follows by
which a numeral can go on, no exponent is. -/
theorem Exponent.scan_append {e : Option Exponent} (he : ∀ x, e = some x → x.WellFormed)
    {rest : List Char} (hrest : ∀ c, rest.head? = some c → continuesNumeral c = false) :
    Exponent.scan (e.elim [] Exponent.text ++ rest) = (e, rest) := by
  cases e with
  | none =>
      rw [Option.elim_none, List.nil_append]
      cases rest with
      | nil => rfl
      | cons c cs =>
          have hc := hrest c rfl
          have hletter : (c == 'e' || c == 'E') = false := by
            simp only [continuesNumeral, Bool.or_eq_false_iff] at hc ⊢
            exact ⟨hc.1.2, hc.2⟩
          simp [scan, scan?, hletter]
  | some x =>
      have hx := he x rfl
      have hletter : (x.letter == 'e' || x.letter == 'E') = true := by simpa using hx.letter
      have hsign := sign_append_of_digits hx.sign hx.digits hx.nonempty rest
      have hdigits : Decimal.digits (x.digits ++ rest) = (x.digits, rest) := by
        apply digits_append_of_head hx.digits
        intro c hc
        have := hrest c hc
        simp only [continuesNumeral, Bool.or_eq_false_iff] at this
        exact this.1.1.1
      have hdigits? : digits? (x.digits ++ rest) = some (x.digits, rest) := by
        rw [digits?_eq_some (by rw [hdigits]; exact hx.nonempty), hdigits]
      have htext : x.text ++ rest = x.letter :: (x.sign ++ (x.digits ++ rest)) := by
        simp [text]
      rw [Option.elim_some, htext]
      simp only [scan, scan?, hletter, if_true, hsign, hdigits?]

namespace Numeral

/-- What follows the digits of a numeral is no digit. -/
theorem head_not_digit {e : Option Exponent} (he : ∀ x, e = some x → x.WellFormed)
    {rest : List Char} (hrest : ∀ c, rest.head? = some c → continuesNumeral c = false) (c : Char)
    (hc : (e.elim [] Exponent.text ++ rest).head? = some c) : c.isDigit = false ∧ c ≠ '.' := by
  cases e with
  | none =>
      have := hrest c hc
      simp only [continuesNumeral, Bool.or_eq_false_iff, beq_eq_false_iff_ne] at this
      exact ⟨this.1.1.1, this.1.1.2⟩
  | some x => exact Exponent.head_text (he x rfl) rest c hc

/-- A numeral that cannot go on with what follows is split off whole. -/
theorem scan?_text_append {n : Numeral} (hn : n.WellFormed) {rest : List Char}
    (hrest : ∀ c, rest.head? = some c → continuesNumeral c = false) :
    scan? (n.text ++ rest) = some (n, rest) := by
  obtain ⟨whole, fraction, exponent⟩ := n
  have hexponent := Exponent.scan_append hn.exponent hrest
  have hhead := head_not_digit hn.exponent hrest
  dsimp only at hexponent hhead
  have hassoc : text ⟨whole, fraction, exponent⟩ ++ rest =
      whole ++ (fraction.elim [] ('.' :: ·) ++ (exponent.elim [] Exponent.text ++ rest)) := by
    simp [text]
  generalize exponent.elim [] Exponent.text ++ rest = tail at hexponent hhead hassoc
  have hdigits : digits (whole ++ (fraction.elim [] ('.' :: ·) ++ tail)) =
      (whole, fraction.elim [] ('.' :: ·) ++ tail) := by
    apply digits_append_of_head hn.whole
    intro c hc
    cases fraction with
    | none => exact (hhead c hc).1
    | some ds =>
        rw [← Option.some.inj hc]
        decide
  have hfraction :
      fraction? whole (fraction.elim [] ('.' :: ·) ++ tail) = some (fraction, tail) := by
    cases fraction with
    | none =>
        have hne : whole ≠ [] := by
          rcases hn.nonempty with h | ⟨ds, hds, _⟩
          · exact h
          · simp at hds
        rw [Option.elim_none, List.nil_append]
        unfold fraction?
        split
        · exact absurd rfl (hhead '.' rfl).2
        · rw [if_neg (by simpa using hne)]
    | some ds =>
        have hdigits' := digits_append_of_head (hn.fraction ds rfl) fun c hc => (hhead c hc).1
        rw [Option.elim_some, List.cons_append, fraction?_point, hdigits']
        rw [hdigits']
        refine hn.nonempty.imp id ?_
        rintro ⟨ds', hds', h⟩
        rwa [Option.some.inj hds']
  rw [hassoc, scan?_eq_some (by rw [hdigits]; exact hfraction), hdigits, hexponent]

end Numeral

end MetricFormula.Decimal
