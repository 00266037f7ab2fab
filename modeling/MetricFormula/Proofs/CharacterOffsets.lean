/-
  Proofs/CharacterOffsets: when the places of faults count characters.

  Spans are counted in bytes, and a report counts characters from the same numbers.  The two
  agree for every fault but one: what stands before the place of a failure of the grammar is
  made of tokens and their blanks, and so is a whole text that has a parse tree.  A text that
  nests too deeply has not been read, and the place of its fault counts characters exactly if
  every character before it is one byte (`countsCharacters_iff`).
-/
import MetricFormula.Proofs.Localisation
import MetricFormula.Proofs.Malformation

set_option autoImplicit false

namespace MetricFormula

open MetricFormula.Grammar

/-! ## Characters before an offset -/

namespace Text

variable {cs ds : List Char} {n : Nat}

/-- The number of characters that start before a byte offset. -/
def charactersBefore : List Char → Nat → Nat
  | [], _ => 0
  | c :: cs, offset =>
      if offset = 0 then 0 else charactersBefore cs (offset - c.utf8Size) + 1

theorem charactersBefore_append (cs ds : List Char) :
    charactersBefore (cs ++ ds) (byteLength cs) = cs.length := by
  induction cs with
  | nil => cases ds <;> simp [charactersBefore]
  | cons c cs ih =>
      have hpos := c.utf8Size_pos
      rw [List.cons_append, charactersBefore, byteLength_cons, if_neg (by omega),
        Nat.add_sub_cancel_left, ih, List.length_cons]

theorem length_le_byteLength (cs : List Char) : cs.length ≤ byteLength cs := by
  induction cs with
  | nil => exact Nat.le_refl 0
  | cons c cs ih =>
      have hpos := c.utf8Size_pos
      rw [List.length_cons, byteLength_cons]
      omega

/-- Bytes count characters exactly where every character is one byte. -/
theorem byteLength_eq_length_iff : byteLength cs = cs.length ↔ ∀ c ∈ cs, c.utf8Size = 1 := by
  refine ⟨fun h => ?_, byteLength_eq_length⟩
  induction cs with
  | nil => simp
  | cons c cs ih =>
      have hpos := c.utf8Size_pos
      have hle := length_le_byteLength cs
      rw [byteLength_cons, List.length_cons] at h
      exact List.forall_mem_cons.mpr ⟨by omega, ih (by omega)⟩

/-- The offset after some characters counts them exactly if each of them is one byte. -/
theorem charactersBefore_eq_iff (cs ds : List Char) :
    charactersBefore (cs ++ ds) (byteLength cs) = byteLength cs ↔ ∀ c ∈ cs, c.utf8Size = 1 := by
  rw [charactersBefore_append, eq_comm, byteLength_eq_length_iff]

/-- A text of one-byte characters is split at every offset. -/
theorem charactersBefore_of_le (h : ∀ c ∈ cs, c.utf8Size = 1) (hn : n ≤ byteLength cs) :
    charactersBefore cs n = n := by
  rw [byteLength_eq_length h] at hn
  have htake : ∀ c ∈ cs.take n, c.utf8Size = 1 := fun c hc => h c (List.mem_of_mem_take hc)
  have hlength : byteLength (cs.take n) = n := by
    rw [byteLength_eq_length htake, List.length_take_of_le hn]
  have hcount := (charactersBefore_eq_iff (cs.take n) (cs.drop n)).mpr htake
  rwa [List.take_append_drop, hlength] at hcount

/-- There is one way to split a text at an offset. -/
theorem append_eq_append_of_byteLength {cs' ds' : List Char} (h : cs' ++ ds' = cs ++ ds)
    (hlength : byteLength cs' = byteLength cs) : cs' = cs := by
  have hcount := charactersBefore_append cs' ds'
  rw [h, hlength, charactersBefore_append] at hcount
  exact (List.append_inj h hcount.symm).1

end Text

open Text

/-! ## Texts without a parse tree -/

/-- The place behind a parenthesis. -/
theorem Nesting.exists_split_of_excess? {limit depth offset position : Nat} {cs : List Char}
    (h : excess? limit depth offset cs = some position) :
    ∃ before after, before ++ after = cs ∧ position = offset + byteLength before := by
  induction cs generalizing depth offset with
  | nil => simp [excess?] at h
  | cons c cs ih =>
      have hstep : ∀ {depth' : Nat},
          excess? limit depth' (offset + c.utf8Size) cs = some position →
          ∃ before after, before ++ after = c :: cs ∧ position = offset + byteLength before := by
        intro depth' h
        obtain ⟨before, after, rfl, rfl⟩ := ih h
        exact ⟨c :: before, after, rfl, Nat.add_assoc _ _ _⟩
      rw [excess?] at h
      split at h
      · rename_i hc
        subst hc
        split at h
        · exact ⟨['('], cs, rfl, (Option.some.inj h).symm⟩
        · exact hstep h
      · split at h
        · exact hstep h
        · exact hstep h

/-- A text that nests too deeply is split where its fault is. -/
theorem Nesting.exists_split_of_check {limit : Nat} {source : String} {e : Fault}
    (h : check limit source = .error e) :
    ∃ before after, before ++ after = source.toList ∧
      e = .malformed (byteLength before) (.tooDeep limit) := by
  unfold check at h
  split at h
  · rename_i position hposition
    obtain ⟨before, after, hsplit, rfl⟩ := exists_split_of_excess? hposition
    refine ⟨before, after, hsplit, ?_⟩
    rw [← Except.error.inj h, Nat.zero_add]
  · simp at h

theorem Grammar.Viable.utf8Size {text : String} (h : Viable text) :
    ∀ c ∈ text.toList, c.utf8Size = 1 := by
  obtain ⟨x, ts, hcut, -⟩ := viable_iff.mp h
  exact fun c hc => hcut.utf8Size c (List.mem_append_left x hc)

/-- Only one-byte characters stand before the place of a failure of the grammar. -/
theorem exists_split_of_tree {source : String} {f : Frontier} (h : tree source = .error f) :
    ∃ before after, before ++ after = source.toList ∧
      reportedPosition source.toList f.offset = byteLength before ∧
      ∀ c ∈ before, c.utf8Size = 1 := by
  obtain ⟨read, rest, s, hstops⟩ := exists_stopsAt h
  have hread := hstops.viable.utf8Size
  by_cases hrest : rest = ""
  · obtain ⟨ps, words, blanks, -, hposition, hsplit, hwords, -⟩ := hstops.reportedPosition_end hrest
    refine ⟨words, blanks, hsplit.symm, hposition.trans hwords.symm, fun c hc => hread c ?_⟩
    have hsource : read = source := by rw [← hstops.append, hrest, String.append_empty]
    rw [hsource, hsplit]
    exact List.mem_append_left blanks hc
  · refine ⟨read.toList, rest.toList, ?_, ?_, hread⟩
    · rw [← String.toList_append, hstops.append]
    · rw [hstops.reportedPosition_eq hrest, hstops.offset]

/-! ## Texts -/

/-- As many characters as bytes stand before both ends of a span. -/
def Span.CountsCharacters (source : String) (span : Span) : Prop :=
  charactersBefore source.toList span.start = span.start ∧
    charactersBefore source.toList span.stop = span.stop

instance (source : String) (span : Span) : Decidable (span.CountsCharacters source) :=
  inferInstanceAs (Decidable (_ ∧ _))

namespace Policy

/-- Checking, validating or evaluating a text fails. -/
inductive Fails (p : Policy) (source : String) (f : Fault) : Prop
  | check : p.check source = .error f → Fails p source f
  | validate : p.validate source = .error f → Fails p source f
  | evaluate {σ : Type} [Series σ] (bindings : Bindings σ) :
      p.evaluate source bindings = .error f → Fails p source f

variable {p : Policy} {source : String} {f : Fault} {span : Span}

/-- A fault about a piece of the text is placed there. -/
theorem span?_of_piece? (h : f.piece? = some span) : f.span? = some span := by
  cases f with
  | malformed _ _ => simp [Fault.piece?] at h
  | series _ => simp [Fault.piece?] at h
  | internal _ => simp [Fault.piece?] at h
  | _ => exact h

/-- A fault that shows what it is about has its place in the text. -/
theorem Localised.span_le {α : Type} {operation : String → Except Fault α}
    (h : p.Localised operation source f) (hspan : f.span? = some span) :
    span.start ≤ span.stop ∧ span.stop ≤ byteLength source.toList := by
  cases h with
  | literal hcovers _ =>
      obtain rfl := Option.some.inj hspan
      exact ⟨Nat.le_refl _, Nat.le_trans hcovers.le hcovers.stop_le⟩
  | @piece _ span' _ hpiece hcovers _ _ =>
      obtain rfl : span' = span := Option.some.inj ((span?_of_piece? hpiece).symm.trans hspan)
      exact ⟨hcovers.le, hcovers.stop_le⟩
  | series => simp [Fault.span?] at hspan

theorem Localised.ne_tooDeep {α : Type} {operation : String → Except Fault α}
    (h : p.Localised operation source f) (position limit : Nat) :
    f ≠ .malformed position (.tooDeep limit) := by
  rintro rfl
  cases h with
  | piece hpiece _ _ _ => simp [Fault.piece?] at hpiece

/-- A fault of a text without a parse tree, or one that is placed in the text and not for its
depth. -/
theorem LocalisesParsed.cases_span {α : Type} {operation : String → Except Fault α}
    (h : p.LocalisesParsed operation source) (hf : operation source = .error f)
    (hspan : f.span? = some span) :
    Interpretation.parse p.maxDepth source = .error f ∨
      ∃ t, Interpretation.parse p.maxDepth source = .ok t ∧
        (∀ position limit, f ≠ .malformed position (.tooDeep limit)) ∧
        span.start ≤ span.stop ∧ span.stop ≤ byteLength source.toList := by
  refine (h f hf).imp_right ?_
  rintro ⟨t, ht, hlocalised⟩
  exact ⟨t, ht, hlocalised.ne_tooDeep, hlocalised.span_le hspan⟩

theorem Fails.cases_span (h : p.Fails source f) (hspan : f.span? = some span) :
    Interpretation.parse p.maxDepth source = .error f ∨
      ∃ t, Interpretation.parse p.maxDepth source = .ok t ∧
        (∀ position limit, f ≠ .malformed position (.tooDeep limit)) ∧
        span.start ≤ span.stop ∧ span.stop ≤ byteLength source.toList := by
  cases h with
  | check h => exact check_localisesParsed.cases_span h hspan
  | validate h => exact validate_localisesParsed.cases_span h hspan
  | evaluate bindings h => exact (evaluate_localisesParsed bindings).cases_span h hspan

end Policy

/-- The place of a fault counts characters, unless the text nests too deeply and a character
before that place takes more than one byte. -/
theorem countsCharacters_iff {p : Policy} {source : String} {f : Fault} {span : Span}
    (hf : p.Fails source f) (hspan : f.span? = some span) :
    span.CountsCharacters source ↔
      ∀ position limit, f = .malformed position (.tooDeep limit) →
        ∀ before after, before ++ after = source → byteLength before.toList = position →
          ∀ c ∈ before.toList, c.utf8Size = 1 := by
  rcases hf.cases_span hspan with hparse | ⟨t, ht, hreason, hle, hstop⟩
  · rcases Interpretation.parse_eq_error.mp hparse with hcheck | ⟨-, frontier, htree, rfl⟩
    · obtain ⟨before, after, hsplit, rfl⟩ := Nesting.exists_split_of_check hcheck
      obtain rfl := Option.some.inj hspan
      have hcount : (Span.point (byteLength before)).CountsCharacters source ↔
          ∀ c ∈ before, c.utf8Size = 1 := by
        rw [← charactersBefore_eq_iff before after, hsplit]
        exact and_self_iff
      rw [hcount]
      constructor
      · intro hsize position limit heq before' after' hsplit' hposition
        obtain rfl := (Fault.malformed.inj heq).1
        rw [← String.toList_inj, String.toList_append, ← hsplit] at hsplit'
        rwa [append_eq_append_of_byteLength hsplit' hposition]
      · intro h
        have hbefore := h _ _ rfl (String.ofList before) (String.ofList after)
        simpa [← String.toList_inj, hsplit] using hbefore
    · obtain ⟨before, after, hsplit, hposition, hsize⟩ := exists_split_of_tree htree
      obtain rfl := Option.some.inj hspan
      have hcount := (charactersBefore_eq_iff before after).mpr hsize
      rw [hsplit, ← hposition] at hcount
      simp [Span.CountsCharacters, Span.point, hcount, Fault.ofFailure]
  · obtain ⟨ts, hcut, -⟩ := tree_sound (Interpretation.parse_eq_ok.mp ht).2
    have hcount : ∀ n, n ≤ byteLength source.toList → charactersBefore source.toList n = n :=
      fun n hn => charactersBefore_of_le hcut.utf8Size hn
    exact iff_of_true ⟨hcount _ (Nat.le_trans hle hstop), hcount _ hstop⟩
      fun position limit heq => absurd heq (hreason position limit)

/-- A character of two bytes before one parenthesis too many. -/
def accentedNest : String := "é" ++ String.ofList (List.replicate 100 '(')

/-- The place of the fault is one more than the number of characters before it. -/
theorem not_countsCharacters_accentedNest :
    Policy.standard.Fails accentedNest (.malformed 102 (.tooDeep 100)) ∧
      (Fault.malformed 102 (.tooDeep 100)).span? = some (Span.point 102) ∧
      charactersBefore accentedNest.toList 102 = 101 ∧
      ¬(Span.point 102).CountsCharacters accentedNest :=
  ⟨.check (by decide +kernel), rfl, by decide +kernel, by decide +kernel⟩

/-- A character of two bytes does not disturb a failure of the grammar, nor a fault for the depth
of a text if it stands behind its place. -/
theorem countsCharacters_iff_accented :
    (Policy.standard.Fails "a + é"
        (.malformed 4 (.unexpected (some 'é') ⟨true, false, false, false⟩)) ∧
      (Span.point 4).CountsCharacters "a + é") ∧
    ((Policy.standard.withMaxDepth 1).Fails "(é" (.malformed 1 (.tooDeep 1)) ∧
      ∀ before after, before ++ after = "(é" → byteLength before.toList = 1 →
        ∀ c ∈ before.toList, c.utf8Size = 1) := by
  have hgrammar : Policy.standard.check "a + é" =
      .error (.malformed 4 (.unexpected (some 'é') ⟨true, false, false, false⟩)) := by
    decide +kernel
  have hdepth : (Policy.standard.withMaxDepth 1).check "(é" =
      .error (.malformed 1 (.tooDeep 1)) := by decide +kernel
  refine ⟨⟨.check hgrammar, ?_⟩, .check hdepth, ?_⟩
  · exact (countsCharacters_iff (.check hgrammar) rfl).mpr fun _ _ heq => by simp at heq
  · exact (countsCharacters_iff (.check hdepth) rfl).mp (by decide +kernel) _ _ rfl

end MetricFormula
