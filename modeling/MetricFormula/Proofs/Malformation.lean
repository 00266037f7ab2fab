/-
  Proofs/Malformation: where a text stops being a formula, and what could have come there.

  A text that has no parse tree is split at the furthest failure: what stands before it can be
  completed to a formula, and the next character cannot follow it, unless it could belong to a
  literal that is unfinished (`rejects_at_furthest_failure`).  The classes that the message
  names are exactly those that can follow (`message_names_viable_classes`).

  Both are read off the progress that has been made before the failure (`StopsAt`).
-/
import MetricFormula.Proofs.Grammar.Frontier
import MetricFormula.Proofs.Grammar.Visible
import MetricFormula.Proofs.Interpretation.Outcome
import Mathlib.Control.Monad.Basic

set_option autoImplicit false

namespace MetricFormula

open MetricFormula.Grammar MetricFormula.Text

/-! ## Texts that every operation refuses -/

/-- Checking, validating and evaluating a text fail in the same way. -/
structure Policy.Rejects (p : Policy) (source : String) (e : Fault) : Prop where
  check : p.check source = .error e
  validate : p.validate source = .error e
  evaluate : ∀ {σ : Type} [Series σ] (bindings : Bindings σ),
    p.evaluate source bindings = .error e

theorem Policy.rejects_of_parse {p : Policy} {source : String} {e : Fault}
    (h : Interpretation.parse p.maxDepth source = .error e) : p.Rejects source e where
  check := by rw [check_eq, h]; rfl
  validate := validate_of_parse h
  evaluate bindings := by rw [evaluate_eq, h]; rfl

theorem Interpretation.parse_of_tree {maxDepth : Nat} {source : String} {f : Frontier}
    (hcheck : Nesting.check maxDepth source = .ok ()) (htree : tree source = .error f) :
    parse maxDepth source = .error (.ofFailure source f.offset f.expected) :=
  parse_eq_error.mpr (Or.inr ⟨hcheck, f, htree, rfl⟩)

/-! ## The split at the furthest failure -/

/-- A text is read up to a progress from which the rest cannot go on. -/
structure StopsAt (source : String) (f : Frontier) (read rest : String) (s : Progress) : Prop where
  append : read ++ rest = source
  offset : byteLength read.toList = f.offset
  finishes : ∀ x, Joins rest.toList x →
    (Finishes (.operand []) (read.toList ++ x) ↔ Finishes s x)
  blocked : ∀ c, rest.toList.head? = some c →
    Scan.isGap c = false ∧ (c ≠ '.' → ∀ t s', t.Starts c → ¬Advances s t s')
  expected : Expectation.ofRules f.expected = s.expectation
  cut : rest = "" → ∃ ps, CutAt (Cursor.ofString source) ps

theorem exists_stopsAt {source : String} {f : Frontier} (h : tree source = .error f) :
    ∃ read rest s, StopsAt source f read rest s := by
  obtain ⟨s, c, hpassage, hblocked, hoffset, hexpected⟩ := stuck_of_tree h
  obtain ⟨read, hread, hfinishes⟩ := hpassage.finishes_iff
  refine ⟨String.ofList read, String.ofList c.rest, s, ?_, ?_, ?_, ?_, hexpected, ?_⟩
  · rw [← String.toList_inj]
    simpa [Cursor.ofString] using hread.rest.symm
  · rw [hoffset, hread.offset, String.toList_ofList]
    simp [Cursor.ofString]
  · intro x hx
    rw [String.toList_ofList] at hx ⊢
    exact (hfinishes x hx).1
  · intro d hd
    rw [String.toList_ofList] at hd
    exact hblocked d hd
  · intro hrest
    refine hpassage.exists_cutAt ?_
    rwa [← String.toList_inj, String.toList_ofList] at hrest

namespace StopsAt

variable {source read rest : String} {f : Frontier} {s : Progress}

/-- What has been read can be completed. -/
theorem viable (h : StopsAt source f read rest s) : Viable read := by
  obtain ⟨x, hx, hfinishes⟩ := exists_finishes s rest.toList
  exact viable_iff.mpr ⟨x, (h.finishes x hx).mpr hfinishes⟩

/-- What has been read is viable with some text after it if that text can come next. -/
theorem viable_append_iff (h : StopsAt source f read rest s) {text : String}
    (htext : ∀ x, Joins rest.toList (text.toList ++ x)) :
    Viable (read ++ text) ↔ ∃ x, Finishes s (text.toList ++ x) := by
  rw [viable_iff]
  refine exists_congr fun x => ?_
  rw [String.toList_append, List.append_assoc]
  exact h.finishes _ (htext x)

/-- The next character cannot follow, unless it could belong to an unfinished literal. -/
theorem unfinished_of_viable (h : StopsAt source f read rest s) {c : Char}
    (hc : rest.toList.head? = some c) (hviable : Viable (read ++ c.toString)) :
    c = '.' ∨ c = 'e' ∨ c = 'E' := by
  refine Decidable.byContradiction fun hnot => ?_
  obtain ⟨hpoint, he, hE⟩ : c ≠ '.' ∧ c ≠ 'e' ∧ c ≠ 'E' := by simpa using hnot
  have hjoins : ∀ x, Joins rest.toList (c.toString.toList ++ x) := by
    intro x d hd
    obtain rfl : c = d := by simpa using hd
    exact Or.inr ⟨hc, hpoint, he, hE⟩
  obtain ⟨x, hx⟩ := (h.viable_append_iff hjoins).mp hviable
  obtain ⟨hgap, hblocked⟩ := h.blocked c hc
  exact not_finishes hgap (hblocked hpoint) (by simpa using hx)

theorem viable_one_iff (h : StopsAt source f read rest s) :
    Viable (read ++ " 1") ↔ ∃ opened, s = .operand opened := by
  rw [h.viable_append_iff fun x => joins_of_endsWord (endsWord_of_isGap rfl)]
  exact finishes_one_iff

theorem viable_operator_iff (h : StopsAt source f read rest s) {c : Char} (hc : c ∈ operators) :
    Viable (read ++ c.toString) ↔ ∃ b opened, s = .complete b opened := by
  have hends := endsWord_of_mem_symbols (operators_subset_symbols c hc)
  rw [h.viable_append_iff fun x => by simpa using joins_of_endsWord hends,
    ← finishes_operator_iff hc]
  simp

theorem tree_read_iff (h : StopsAt source f read rest s) :
    (∃ t, tree read = .ok t) ↔ ∃ b, s = .complete b [] := by
  rw [exists_tree_iff, ← finishes_nil_iff, ← h.finishes [] joins_nil, List.append_nil]

theorem byteLength_eq (h : StopsAt source f read rest s) :
    byteLength source.toList = f.offset + byteLength rest.toList := by
  rw [← h.append, String.toList_append, byteLength_append, h.offset]

theorem byteLength_rest_pos (h : rest ≠ "") : 0 < byteLength rest.toList := by
  cases hrest : rest.toList with
  | nil => exact absurd (String.toList_inj.mp hrest) h
  | cons c cs => exact Nat.lt_of_lt_of_le c.utf8Size_pos (Nat.le_add_right _ _)

/-- The text has been read to its end exactly if nothing is left. -/
theorem offset_eq_iff (h : StopsAt source f read rest s) :
    f.offset = byteLength source.toList ↔ rest = "" := by
  rw [h.byteLength_eq]
  constructor
  · intro heq
    refine Decidable.byContradiction fun hne => ?_
    have := byteLength_rest_pos hne
    omega
  · rintro rfl
    simp

/-! ### The position -/

/-- A failure within the text is reported where it is. -/
theorem reportedPosition_eq (h : StopsAt source f read rest s) (hrest : rest ≠ "") :
    reportedPosition source.toList f.offset = f.offset := by
  have hlt := byteLength_rest_pos hrest
  have hlen := h.byteLength_eq
  rw [reportedPosition, if_neg (by omega)]

/-- A failure at the end of the text is reported where the last token ends; only blanks of the
grammar stand behind it. -/
theorem reportedPosition_end (h : StopsAt source f read rest s) (hrest : rest = "") :
    ∃ ps words blanks, CutAt (Cursor.ofString source) ps ∧
      reportedPosition source.toList f.offset = lastStop 0 ps ∧
      source.toList = words ++ blanks ∧ byteLength words = lastStop 0 ps ∧
      ∀ d ∈ blanks, Scan.isGap d = true := by
  obtain ⟨ps, hps⟩ := h.cut hrest
  obtain ⟨words, blanks, hsplit, hblanks, hlast, hstop, _⟩ := hps.exists_words
  have hsplit : source.toList = words ++ blanks := hsplit
  have hstop : byteLength words = lastStop 0 ps := (Nat.zero_add _).symm.trans hstop
  refine ⟨ps, words, blanks, hps, ?_, hsplit, hstop, hblanks⟩
  rw [reportedPosition, if_pos (Nat.le_of_eq (h.offset_eq_iff.mpr hrest).symm), hsplit,
    trimEnd_append (fun d hd => isBlank_of_isGap (hblanks d hd)) hlast, hstop]

end StopsAt

/-! ## The message -/

/-- The character at an offset is the first one after what stands before it, or there is none at
the end of the text. -/
theorem charAt?_split {source read rest : String} {offset : Nat} (h : read ++ rest = source)
    (hoffset : byteLength read.toList = offset) :
    charAt? source.toList offset = rest.toList.head? := by
  rw [← h, ← hoffset, String.toList_append]
  cases rest.toList with
  | cons c cs => exact charAt?_append _ c cs
  | nil =>
      rw [List.append_nil]
      exact charAt?_byteLength _

/-- How a message begins that speaks of an unexpected character, or of the end of the text. -/
def foundText : Option Char → String
  | some c => "unexpected `" ++ c.toString ++ "`"
  | none => "unexpected end of input"

/-- A message names what was found and the classes that were expected, of which there is always
one. -/
theorem message_expectation (found : Option Char) (s : Progress) :
    (Malformation.unexpected found s.expectation).message =
      foundText found ++ ", expected " ++ ", or ".intercalate s.expectation.alternatives := by
  cases s with
  | operand opened => cases found <;> rfl
  | complete b opened =>
      cases opened with
      | nil => cases found <;> rfl
      | cons o opened => cases found <;> rfl

/-- Each class is named where the progress asks for it. -/
theorem mem_alternatives_iff (s : Progress) :
    ("a number, variable, function call or `(`" ∈ s.expectation.alternatives ↔
      ∃ opened, s = .operand opened) ∧
    ("`*` or `/`" ∈ s.expectation.alternatives ↔ ∃ b opened, s = .complete b opened) ∧
    ("`+` or `-`" ∈ s.expectation.alternatives ↔ ∃ b opened, s = .complete b opened) ∧
    ("end of input" ∈ s.expectation.alternatives ↔ ∃ b, s = .complete b []) := by
  cases s with
  | operand opened => simp [Progress.expectation, Expectation.alternatives]
  | complete b opened =>
      cases opened <;> simp [Progress.expectation, Expectation.alternatives]

/-- The classes are named in one order. -/
theorem alternatives_sublist (e : Expectation) :
    e.alternatives.Sublist ["a number, variable, function call or `(`", "`*` or `/`",
      "`+` or `-`", "end of input"] := by
  obtain ⟨operand, multiplicative, additive, finish⟩ := e
  cases operand <;> cases multiplicative <;> cases additive <;> cases finish <;> decide

theorem foundText_prefix_iff (found : Option Char) (text : String) :
    "unexpected end of input".toList <+: (foundText found ++ text).toList ↔ found = none := by
  cases found with
  | none => simp [foundText]
  | some c => simp [foundText]

/-! ## The furthest failure -/

/-- A text that nests few enough levels but has no parse tree splits at the furthest failure.
What stands before it can be completed; the next character is no blank and cannot follow, unless
a point or the letter of an exponent could go on with a literal.  The fault is reported at the
furthest failure if a character stands there, and otherwise where the last token ends, with
nothing but blanks of the grammar behind it. -/
theorem rejects_at_furthest_failure (p : Policy) (source : String) (f : Frontier)
    (hdepth : Nesting.check p.maxDepth source = .ok ()) (htree : tree source = .error f) :
    ∃ read rest position reason,
      read ++ rest = source ∧ byteLength read.toList = f.offset ∧ Viable read ∧
        (∀ c, rest.toList.head? = some c →
          Scan.isGap c = false ∧ (Viable (read ++ c.toString) → c = '.' ∨ c = 'e' ∨ c = 'E')) ∧
        p.Rejects source (.malformed position reason) ∧
        (f.offset < byteLength source.toList → position = f.offset) ∧
        (f.offset = byteLength source.toList →
          ∃ ps words blanks, CutAt (Cursor.ofString source) ps ∧ position = lastStop 0 ps ∧
            source.toList = words ++ blanks ∧ byteLength words = position ∧
            ∀ d ∈ blanks, Scan.isGap d = true) := by
  obtain ⟨read, rest, s, h⟩ := exists_stopsAt htree
  refine ⟨read, rest, _, _, h.append, h.offset, h.viable, ?_,
    Policy.rejects_of_parse (Interpretation.parse_of_tree hdepth htree), ?_, ?_⟩
  · intro c hc
    exact ⟨(h.blocked c hc).1, h.unfinished_of_viable hc⟩
  · intro hlt
    exact h.reportedPosition_eq fun hrest => by
      have := h.offset_eq_iff.mpr hrest
      omega
  · intro hend
    obtain ⟨ps, words, blanks, hcut, hposition, hsplit, hwords, hblanks⟩ :=
      h.reportedPosition_end (h.offset_eq_iff.mp hend)
    exact ⟨ps, words, blanks, hcut, hposition, hsplit, hwords.trans hposition.symm, hblanks⟩

/-- An argument that ends with an operator: the blanks after it are stepped over. -/
theorem rejects_at_furthest_failure_operator :
    Nesting.check Policy.standard.maxDepth "norm(x, 2 * \t" = .ok () ∧
      tree "norm(x, 2 * \t" = .error ⟨13, [.identifier, .identifier, .constant]⟩ ∧
      ∃ ps, CutAt (Cursor.ofString "norm(x, 2 * \t") ps ∧ lastStop 0 ps = 11 := by
  have hdepth : Nesting.check Policy.standard.maxDepth "norm(x, 2 * \t" = .ok () := by
    decide +kernel
  have htree : tree "norm(x, 2 * \t" = .error ⟨13, [.identifier, .identifier, .constant]⟩ :=
    map_eq_error.mp (show (tree _).map (fun _ => ()) = _ by decide +kernel)
  have hcheck : Policy.standard.check "norm(x, 2 * \t" =
      .error (.malformed 11 (.unexpected none ⟨true, false, false, false⟩)) := by decide +kernel
  obtain ⟨read, rest, position, reason, -, -, -, -, hrejects, -, hend⟩ :=
    rejects_at_furthest_failure .standard _ _ hdepth htree
  obtain ⟨ps, words, blanks, hcut, hposition, -⟩ := hend (by decide +kernel)
  rw [hrejects.check, Except.error.injEq, Fault.malformed.injEq] at hcheck
  exact ⟨hdepth, htree, ps, hcut, hposition.symm.trans hcheck.1⟩

/-! ## The expected classes -/

/-- The message for a text that nests few enough levels but has no parse tree names exactly the
classes that can follow what stands before the furthest failure, and says that the text ends
there exactly if it does. -/
theorem message_names_viable_classes (p : Policy) (source : String) (f : Frontier)
    (hdepth : Nesting.check p.maxDepth source = .ok ()) (htree : tree source = .error f) :
    ∃ read rest position reason found classes,
      read ++ rest = source ∧ byteLength read.toList = f.offset ∧
        p.Rejects source (.malformed position reason) ∧
        reason.message = found ++ ", expected " ++ ", or ".intercalate classes ∧
        classes.Sublist ["a number, variable, function call or `(`", "`*` or `/`", "`+` or `-`",
          "end of input"] ∧
        ("a number, variable, function call or `(`" ∈ classes ↔ Viable (read ++ " 1")) ∧
        ("`*` or `/`" ∈ classes ↔ Viable (read ++ "*")) ∧
        ("`+` or `-`" ∈ classes ↔ Viable (read ++ "+")) ∧
        ("end of input" ∈ classes ↔ ∃ t, tree read = .ok t) ∧
        (∀ c, rest.toList.head? = some c → found = "unexpected `" ++ c.toString ++ "`") ∧
        ("unexpected end of input".toList <+: reason.message.toList ↔
          f.offset = byteLength source.toList) := by
  obtain ⟨read, rest, s, h⟩ := exists_stopsAt htree
  have hrejects := Policy.rejects_of_parse (Interpretation.parse_of_tree hdepth htree)
  rw [Fault.ofFailure, charAt?_split h.append h.offset, h.expected] at hrejects
  have hmessage := message_expectation rest.toList.head? s
  have htimes : Viable (read ++ "*") ↔ _ := h.viable_operator_iff (c := '*') (by decide)
  have hplus : Viable (read ++ "+") ↔ _ := h.viable_operator_iff (c := '+') (by decide)
  obtain ⟨hmem₁, hmem₂, hmem₃, hmem₄⟩ := mem_alternatives_iff s
  refine ⟨read, rest, _, _, _, _, h.append, h.offset, hrejects, hmessage,
    alternatives_sublist _, hmem₁.trans h.viable_one_iff.symm, hmem₂.trans htimes.symm,
    hmem₃.trans hplus.symm, hmem₄.trans h.tree_read_iff.symm, ?_, ?_⟩
  · intro c hc
    rw [hc, foundText]
  · rw [hmessage, String.append_assoc, foundText_prefix_iff, h.offset_eq_iff,
      List.head?_eq_none_iff, ← String.toList_inj]
    rfl

/-- After a closed parenthesis outside all others, everything but an operand is expected. -/
theorem message_names_viable_classes_closing :
    Nesting.check Policy.standard.maxDepth "(a + 1.5) )" = .ok () ∧
      tree "(a + 1.5) )" = .error ⟨10, [.mul, .div, .add, .sub, .endOfInput]⟩ ∧
      ∃ read rest classes, read ++ rest = "(a + 1.5) )" ∧ byteLength read.toList = 10 ∧
        "unexpected `)`, expected `*` or `/`, or `+` or `-`, or end of input" =
          "unexpected `)`" ++ ", expected " ++ ", or ".intercalate classes ∧
        ("a number, variable, function call or `(`" ∈ classes ↔ Viable (read ++ " 1")) ∧
        ("`*` or `/`" ∈ classes ↔ Viable (read ++ "*")) ∧
        ("end of input" ∈ classes ↔ ∃ t, tree read = .ok t) := by
  have hdepth : Nesting.check Policy.standard.maxDepth "(a + 1.5) )" = .ok () := by
    decide +kernel
  have htree : tree "(a + 1.5) )" = .error ⟨10, [.mul, .div, .add, .sub, .endOfInput]⟩ :=
    map_eq_error.mp (show (tree _).map (fun _ => ()) = _ by decide +kernel)
  have hcheck : Policy.standard.check "(a + 1.5) )" =
      .error (.malformed 10 (.unexpected (some ')') ⟨false, true, true, true⟩)) := by
    decide +kernel
  obtain ⟨read, rest, position, reason, found, classes, hsplit, hread, hrejects, hmessage, -,
    hone, htimes, -, hfinish, hfound, -⟩ :=
    message_names_viable_classes .standard _ _ hdepth htree
  rw [hrejects.check, Except.error.injEq, Fault.malformed.injEq] at hcheck
  rw [hcheck.2] at hmessage
  refine ⟨hdepth, htree, read, rest, classes, hsplit, hread, ?_, hone, htimes, hfinish⟩
  have hhead : rest.toList.head? = some ')' := by
    rw [← charAt?_split hsplit hread]
    decide +kernel
  rw [← show found = "unexpected `)`" from hfound ')' hhead, ← hmessage]
  decide +kernel

end MetricFormula
