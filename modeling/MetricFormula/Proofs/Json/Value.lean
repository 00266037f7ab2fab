/-
  Proofs/Json/Value: values of JSON texts, and that all of them are passed over.

  `IsValue` is the grammar of values: words, numbers, strings, and lists and objects of any
  depth, with blanks wherever they may stand.  Whatever value stands in a text, it is passed
  over to its end and what comes after it is left (`IsValue.skip`).

  The readers are limited in depth, and three levels for each character are enough: a member
  of a list or an object is shorter than the whole by the two brackets at least.
-/
import MetricFormula.Proofs.Json.Token

set_option autoImplicit false

namespace MetricFormula.Json

open Decimal (continuesNumeral)

/-! ## The grammar of values -/

/-- The words that are values. -/
def words : List (List Char) :=
  [['n', 'u', 'l', 'l'], ['t', 'r', 'u', 'e'], ['f', 'a', 'l', 's', 'e']]

/-- The character that opens a list or, if `keyed`, an object. -/
def opening (keyed : Bool) : Char := if keyed then '\x7b' else '['

mutual

/-- The text of a value, from its first character to its last one. -/
inductive IsValue : List Char → Prop
  | word {cs : List Char} : cs ∈ words → IsValue cs
  | number {cs : List Char} : IsNumber cs → IsValue cs
  | string {body : List Char} : IsStringBody body → IsValue ('"' :: body ++ ['"'])
  | empty (keyed : Bool) {b : List Char} :
      AreBlanks b → IsValue (opening keyed :: b ++ [closing keyed])
  | filled (keyed : Bool) {ms : List Char} :
      AreMembers keyed ms → IsValue (opening keyed :: ms ++ [closing keyed])

/-- A value and the blanks around it. -/
inductive IsElement : List Char → Prop
  | mk {b v b' : List Char} : AreBlanks b → IsValue v → AreBlanks b' → IsElement (b ++ v ++ b')

/-- A member of a list or, if `keyed`, of an object, where it has a name. -/
inductive IsMember : Bool → List Char → Prop
  | item {e : List Char} : IsElement e → IsMember false e
  | named {b body b' e : List Char} :
      AreBlanks b → IsStringBody body → AreBlanks b' → IsElement e →
        IsMember true (b ++ '"' :: body ++ '"' :: b' ++ ':' :: e)

/-- At least one member, with commas between them. -/
inductive AreMembers : Bool → List Char → Prop
  | one {keyed : Bool} {m : List Char} : IsMember keyed m → AreMembers keyed m
  | more {keyed : Bool} {m ms : List Char} :
      IsMember keyed m → AreMembers keyed ms → AreMembers keyed (m ++ ',' :: ms)

end

/-! ## How values begin -/

/-- Whether a value starts with a character. -/
def startsValue (c : Char) : Bool :=
  c == '"' || c == '[' || c == '\x7b' || startsNumber c || (constantWord c).isSome

theorem isBlank_of_startsValue {c : Char} (h : startsValue c = true) : isBlank c = false := by
  have hne : ∀ d, startsValue d = false → c ≠ d := fun _ hd => ne_of_test h hd
  simp [isBlank, hne ' ' rfl, hne '\n' rfl, hne '\t' rfl, hne '\r' rfl]

theorem ne_closing_of_startsValue {c : Char} (h : startsValue c = true) (keyed : Bool) :
    c ≠ closing keyed := by
  cases keyed with
  | false => exact ne_of_test h rfl
  | true => exact ne_of_test h rfl

/-- A value starts after the blanks in front. -/
def Begins (cs : List Char) : Prop :=
  ∃ b c rest, cs = b ++ c :: rest ∧ AreBlanks b ∧ startsValue c = true

theorem Begins.append {cs : List Char} (h : Begins cs) (more : List Char) :
    Begins (cs ++ more) := by
  obtain ⟨b, c, rest, rfl, hb, hc⟩ := h
  exact ⟨b, c, rest ++ more, by simp, hb, hc⟩

theorem IsNumber.exists_head {cs : List Char} (h : IsNumber cs) :
    ∃ c rest, cs = c :: rest ∧ startsNumber c = true := by
  obtain ⟨n, hn, rfl | rfl⟩ := h
  · obtain ⟨d, ds, hds, hd⟩ := hn.exists_head
    have htext : n.text = d :: (ds ++ n.fraction.elim [] ('.' :: ·) ++
        n.exponent.elim [] Decimal.Exponent.text) := by
      simp [Decimal.Numeral.text, hds]
    exact ⟨d, _, htext, by simp [startsNumber, hd]⟩
  · exact ⟨'-', n.text, rfl, rfl⟩

theorem IsValue.exists_head {v : List Char} (h : IsValue v) :
    ∃ c rest, v = c :: rest ∧ startsValue c = true := by
  cases h with
  | word hw =>
      simp only [words, List.mem_cons, List.not_mem_nil, or_false] at hw
      rcases hw with rfl | rfl | rfl
      · exact ⟨'n', _, rfl, rfl⟩
      · exact ⟨'t', _, rfl, rfl⟩
      · exact ⟨'f', _, rfl, rfl⟩
  | number hn =>
      obtain ⟨c, rest, rfl, hc⟩ := hn.exists_head
      exact ⟨c, rest, rfl, by simp [startsValue, hc]⟩
  | string _ => exact ⟨'"', _, rfl, rfl⟩
  | empty keyed _ => exact ⟨opening keyed, _, rfl, by cases keyed <;> rfl⟩
  | filled keyed _ => exact ⟨opening keyed, _, rfl, by cases keyed <;> rfl⟩

theorem IsElement.begins {e : List Char} (h : IsElement e) : Begins e := by
  cases h with
  | @mk b v b' hb hv _ =>
      obtain ⟨c, rest, rfl, hc⟩ := hv.exists_head
      exact ⟨b, c, rest ++ b', by simp, hb, hc⟩

theorem IsMember.begins {keyed : Bool} {m : List Char} (h : IsMember keyed m) : Begins m := by
  cases h with
  | item he => exact he.begins
  | @named b body b' e hb _ _ _ =>
      exact ⟨b, '"', body ++ '"' :: b' ++ ':' :: e, by simp, hb, rfl⟩

theorem AreMembers.begins {keyed : Bool} {ms : List Char} (h : AreMembers keyed ms) :
    Begins ms := by
  cases h with
  | one hm => exact hm.begins
  | more hm _ => exact hm.begins.append _

/-! ## Passing over -/

/-- A character that goes on with no numeral and is not blank, such as a comma or a bracket. -/
structure Separates (c : Char) : Prop where
  isBlank : isBlank c = false
  continues : continuesNumeral c = false

theorem separates_comma : Separates ',' := ⟨rfl, rfl⟩

theorem separates_closing (keyed : Bool) : Separates (closing keyed) := by
  cases keyed <;> exact ⟨rfl, rfl⟩

/-- No numeral goes on with blanks. -/
theorem Ends.of_separates {c : Char} (hc : Separates c) {b : List Char} (hb : AreBlanks b)
    (rest : List Char) : Ends (b ++ c :: rest) := by
  intro d hd
  cases b with
  | nil =>
      rw [← Option.some.inj hd]
      exact hc.continues
  | cons e b =>
      have hblank := hb e List.mem_cons_self
      rw [← Option.some.inj hd]
      simp only [isBlank, Bool.or_eq_true, beq_iff_eq] at hblank
      rcases hblank with ((rfl | rfl) | rfl) | rfl <;> rfl

@[simp] theorem skipBlanks_skipBlanks (cs : List Char) :
    skipBlanks (skipBlanks cs) = skipBlanks cs := by
  induction cs with
  | nil => rfl
  | cons c cs ih =>
      by_cases hc : isBlank c = true
      · simpa [skipBlanks, hc] using ih
      · simp [skipBlanks, hc]

theorem skipValueWithin_skipBlanks (n : Nat) (cs : List Char) :
    skipValueWithin n (skipBlanks cs) = skipValueWithin n cs := by
  cases n with
  | zero => rfl
  | succ n => simp only [skipValueWithin, skipBlanks_skipBlanks]

theorem skipMoreWithin_skipBlanks (keyed : Bool) (n : Nat) (cs : List Char) :
    skipMoreWithin keyed n (skipBlanks cs) = skipMoreWithin keyed n cs := by
  have hname : skipName (skipBlanks cs) = skipName cs := by
    simp only [skipName, skipBlanks_skipBlanks]
  cases n with
  | zero => rfl
  | succ n =>
      cases keyed with
      | false =>
          have hvalue := skipValueWithin_skipBlanks n cs
          simp only [skipMoreWithin, pure_eq_ok, ok_bind, Bool.false_eq_true, if_false, hvalue]
      | true => simp only [skipMoreWithin, hname, if_true]

section FirstCharacter

variable {b : List Char} (hb : AreBlanks b) (n : Nat)
include hb

theorem skipValueWithin_opening (keyed : Bool) (rest : List Char) :
    skipValueWithin (n + 1) (b ++ opening keyed :: rest) = skipMembersWithin keyed n rest := by
  have hblank : isBlank (opening keyed) = false := by cases keyed <;> rfl
  rw [skipValueWithin, skipBlanks_append hb hblank]
  cases keyed <;> rfl

theorem skipValueWithin_quote (rest : List Char) :
    skipValueWithin (n + 1) (b ++ '"' :: rest) = skipString rest := by
  rw [skipValueWithin, skipBlanks_append hb rfl]
  rfl

theorem skipValueWithin_number {c : Char} (hc : startsNumber c = true) (rest : List Char) :
    skipValueWithin (n + 1) (b ++ c :: rest) = skipNumber (c :: rest) := by
  have hblank : isBlank c = false := isBlank_of_startsValue (by simp [startsValue, hc])
  have hne : ∀ d, startsNumber d = false → c ≠ d := fun _ hd => ne_of_test hc hd
  rw [skipValueWithin, skipBlanks_append hb hblank]
  simp only [hne '[' rfl, hne '\x7b' rfl, hne '"' rfl, hc, if_false, if_true]

theorem skipValueWithin_word {w : List Char} (hw : w ∈ words) (rest : List Char) :
    skipValueWithin (n + 1) (b ++ (w ++ rest)) = .ok ((), rest) := by
  simp only [words, List.mem_cons, List.not_mem_nil, or_false] at hw
  rcases hw with rfl | rfl | rfl
  all_goals
    rw [List.cons_append, skipValueWithin, skipBlanks_append hb rfl]
    rfl

end FirstCharacter

/-- At least one member is in front of the closing bracket. -/
theorem skipMembersWithin_of_begins {keyed : Bool} {cs : List Char} (h : Begins cs) (n : Nat) :
    skipMembersWithin keyed (n + 1) cs = skipMoreWithin keyed n cs := by
  obtain ⟨b, c, rest, rfl, hb, hc⟩ := h
  have hskip := skipBlanks_append hb (isBlank_of_startsValue hc) rest
  rw [← skipMoreWithin_skipBlanks, skipMembersWithin, hskip]
  exact if_neg (ne_closing_of_startsValue hc keyed)

/-- What follows a member decides how to go on. -/
theorem skipMoreWithin_of_value {keyed : Bool} {n : Nat} {cs value b : List Char} {c : Char}
    {rest : List Char}
    (hname : (if keyed then skipName cs else pure ((), cs)) = .ok ((), value))
    (hvalue : skipValueWithin n value = .ok ((), b ++ c :: rest))
    (hb : AreBlanks b) (hc : Separates c) :
    skipMoreWithin keyed (n + 1) cs =
      if c = ',' then skipMoreWithin keyed n rest
      else if c = closing keyed then .ok ((), rest)
      else .error .notJson := by
  have hskip := skipBlanks_append hb hc.isBlank rest
  cases keyed with
  | false =>
      have hcs : cs = value := congrArg Prod.snd (Except.ok.inj hname)
      rw [hcs, skipMoreWithin]
      simp only [pure_eq_ok, ok_bind, Bool.false_eq_true, if_false, hvalue, hskip]
      rfl
  | true =>
      rw [if_pos rfl] at hname
      rw [skipMoreWithin, if_pos rfl]
      simp only [ok_bind, hname, hvalue, hskip, pure_eq_ok]
      rfl

theorem colon_append {b : List Char} (hb : AreBlanks b) (rest : List Char) :
    colon (b ++ ':' :: rest) = .ok ((), rest) := by
  rw [colon, skipBlanks_append hb rfl]
  rfl

theorem skipName_append {b body b' : List Char} (hb : AreBlanks b) (hbody : IsStringBody body)
    (hb' : AreBlanks b') (rest : List Char) :
    skipName (b ++ '"' :: body ++ '"' :: b' ++ ':' :: rest) = .ok ((), rest) := by
  have htext : b ++ '"' :: body ++ '"' :: b' ++ ':' :: rest =
      b ++ '"' :: (body ++ '"' :: (b' ++ ':' :: rest)) := by
    simp
  rw [htext, skipName, skipBlanks_append hb rfl]
  simp only [if_true, skipString_append hbody, ok_bind]
  exact colon_append hb' rest

/-! The induction is on the texts.  `n` bounds the levels of the reader, not the depth of the
value: the reader goes down one level for each member of a list as well. -/

mutual

/-- A value is passed over with the blanks in front of it. -/
theorem IsValue.skipWithin {v : List Char} : IsValue v → ∀ {n : Nat}, 3 * v.length ≤ n →
    ∀ {b : List Char}, AreBlanks b → ∀ {rest : List Char}, Ends rest →
      skipValueWithin n (b ++ (v ++ rest)) = .ok ((), rest)
  | h, 0, hn, _, _, _, _ => by
      obtain ⟨c, rest, rfl, -⟩ := h.exists_head
      exact absurd hn (by simp)
  | .word hw, n + 1, _, _, hb, rest, _ => skipValueWithin_word hb n hw rest
  | .number h, n + 1, _, b, hb, rest, hrest => by
      obtain ⟨c, cs, rfl, hc⟩ := h.exists_head
      rw [List.cons_append, skipValueWithin_number hb n hc, ← List.cons_append]
      exact skipNumber_append h hrest
  | @IsValue.string body h, n + 1, _, b, hb, rest, _ => by
      have htext : '"' :: body ++ ['"'] ++ rest = '"' :: (body ++ '"' :: rest) := by simp
      rw [htext, skipValueWithin_quote hb n]
      exact skipString_append h rest
  | @IsValue.empty keyed inner h, n + 1, hn, b, hb, rest, _ => by
      obtain ⟨n, rfl⟩ : ∃ k, n = k + 1 := ⟨n - 1, by simp at hn; omega⟩
      have htext : opening keyed :: inner ++ [closing keyed] ++ rest =
          opening keyed :: (inner ++ closing keyed :: rest) := by
        simp
      rw [htext, skipValueWithin_opening hb, skipMembersWithin,
        skipBlanks_append h (separates_closing keyed).isBlank]
      exact if_pos rfl
  | @IsValue.filled keyed ms h, n + 1, hn, b, hb, rest, _ => by
      -- The brackets pay for the levels of the list itself and of its members.
      have hlength : 3 * ms.length + 6 ≤ n + 1 := by simpa [Nat.mul_add] using hn
      obtain ⟨n, rfl⟩ : ∃ k, n = k + 1 := ⟨n - 1, by omega⟩
      have htext : opening keyed :: ms ++ [closing keyed] ++ rest =
          opening keyed :: (ms ++ closing keyed :: rest) := by
        simp
      rw [htext, skipValueWithin_opening hb, skipMembersWithin_of_begins (h.begins.append _)]
      exact h.skipWithin (by omega) rest

/-- A value is passed over with the blanks around it, of which the last ones may be left. -/
theorem IsElement.skipWithin {e : List Char} : IsElement e → ∀ {n : Nat}, 3 * e.length ≤ n →
    ∀ {c : Char}, Separates c → ∀ rest : List Char,
      ∃ b, AreBlanks b ∧ skipValueWithin n (e ++ c :: rest) = .ok ((), b ++ c :: rest)
  | @IsElement.mk b v b' hb hv hb', n, hn, c, hc, rest => by
      have hlength : 3 * v.length ≤ n := by
        simp only [List.length_append] at hn
        omega
      have hskip := hv.skipWithin hlength hb (Ends.of_separates hc hb' rest)
      exact ⟨b', hb', by simpa using hskip⟩

/-- A member is passed over up to the character after it. -/
theorem IsMember.skipWithin {keyed : Bool} {m : List Char} : IsMember keyed m →
    ∀ {n : Nat}, 3 * m.length ≤ n → ∀ {c : Char}, Separates c → ∀ rest : List Char,
      skipMoreWithin keyed (n + 1) (m ++ c :: rest) =
        if c = ',' then skipMoreWithin keyed n rest
        else if c = closing keyed then .ok ((), rest)
        else .error .notJson
  | .item he, n, hn, c, hc, rest => by
      obtain ⟨b, hb, hskip⟩ := he.skipWithin hn hc rest
      exact skipMoreWithin_of_value rfl hskip hb hc
  | @IsMember.named b body b' e hb hbody hb' he, n, hn, c, hc, rest => by
      have hlength : 3 * e.length ≤ n := by
        simp only [List.length_append, List.length_cons] at hn
        omega
      have htext : b ++ '"' :: body ++ '"' :: b' ++ ':' :: e ++ c :: rest =
          b ++ '"' :: body ++ '"' :: b' ++ ':' :: (e ++ c :: rest) := by
        simp
      obtain ⟨b'', hb'', hskip⟩ := he.skipWithin hlength hc rest
      rw [htext]
      exact skipMoreWithin_of_value (skipName_append hb hbody hb' _) hskip hb'' hc

/-- Members are passed over with the closing bracket. -/
theorem AreMembers.skipWithin {keyed : Bool} {ms : List Char} : AreMembers keyed ms →
    ∀ {n : Nat}, 3 * ms.length + 1 ≤ n → ∀ rest : List Char,
      skipMoreWithin keyed n (ms ++ closing keyed :: rest) = .ok ((), rest)
  | .one hm, n, hn, rest => by
      obtain ⟨n, rfl⟩ : ∃ k, n = k + 1 := ⟨n - 1, by omega⟩
      have hcomma : closing keyed ≠ ',' := by cases keyed <;> decide
      rw [hm.skipWithin (by omega) (separates_closing keyed), if_neg hcomma, if_pos rfl]
  | .more hm hms, n, hn, rest => by
      obtain ⟨n, rfl⟩ : ∃ k, n = k + 1 := ⟨n - 1, by omega⟩
      simp only [List.length_append, List.length_cons] at hn
      rw [List.append_assoc, List.cons_append, hm.skipWithin (by omega) separates_comma,
        if_pos rfl]
      exact hms.skipWithin (by omega) rest

end

/-- Any value is passed over, and what comes after it is left. -/
theorem IsElement.skip {e : List Char} (h : IsElement e) {c : Char} (hc : Separates c)
    (rest : List Char) :
    ∃ b, AreBlanks b ∧ skipValue (e ++ c :: rest) = .ok ((), b ++ c :: rest) :=
  h.skipWithin (by simp; omega) hc rest

end MetricFormula.Json
