/-
  Proofs/Overlay: a policy is read back from its text, and other texts replace the standard.

  The text that is written for a policy is that of an object with the two members
  (`isObject_jsonText`).  So that it is read back is a case of what holds of every object: the
  policy that is read is the standard one with exactly those fields replaced that the members
  state, in whatever order they come and whatever other members stand between them.
-/
import MetricFormula.Proofs.Policy.Entry

set_option autoImplicit false

namespace MetricFormula

namespace Policy

open MetricFormula.Json

/-! ## Texts as they are written -/

theorem isName_quoted (name : String) : IsName (quoted name) name :=
  .mk .nil (spells_flatMap_escapeChar name.toList) .nil

theorem isNameList_quotedNames (names : List String) :
    IsNameList ('[' :: quotedNames names ++ [']']) names := by
  have hnames : ∀ x xs, AreNames (quotedNames (x :: xs)) (x :: xs) := by
    intro x xs
    induction xs generalizing x with
    | nil => exact .one (isName_quoted x)
    | cons y ys ih => exact .more (isName_quoted x) (ih y)
  cases names with
  | nil => exact .empty .nil
  | cons x xs => exact .filled (hnames x xs)

/-- A policy is written as an object that states both of its fields. -/
theorem isObject_jsonText {p : Policy} (h : p.maxDepth < 2 ^ 64) :
    IsObject p.jsonText [.maxDepth p.maxDepth, .functions p.functions.toList] := by
  have hdepth : (Entry.maxDepth p.maxDepth).IsValue (Nat.toDigits 10 p.maxDepth) := by
    have hvalue := Entry.IsValue.maxDepth .nil (isNumeral_toDigits p.maxDepth)
      (by rwa [Decimal.natural_toDigits]) .nil
    rwa [Decimal.natural_toDigits, List.nil_append, List.append_nil] at hvalue
  have hfunctions : (Entry.functions p.functions.toList).IsValue
      ('[' :: quotedNames p.functions.toList ++ [']']) := by
    have hvalue := Entry.IsValue.functions .nil (isNameList_quotedNames p.functions.toList) .nil
    rwa [List.nil_append, List.append_nil] at hvalue
  have hobject := IsObject.filled .nil
    (.more (isName_quoted "max_depth") hdepth (.one (isName_quoted "functions") hfunctions)) .nil
  simpa [jsonText] using hobject

/-! ## The law of replacement -/

/-- Each of the two fields is stated at most once. -/
def AtMostOnce (es : List Entry) : Prop :=
  (es.map Entry.name).count "max_depth" ≤ 1 ∧ (es.map Entry.name).count "functions" ≤ 1

instance (es : List Entry) : Decidable (AtMostOnce es) := inferInstanceAs (Decidable (_ ∧ _))

/-- The standard policy with what the members state in place of its own. -/
def overlay (es : List Entry) : Policy := es.foldl Entry.replace standard

theorem ofJson_of_isObject {source : String} {es : List Entry} (h : IsObject source.toList es)
    (honce : AtMostOnce es) : ofJson source = .ok (overlay es) := by
  obtain ⟨b, hb, hread⟩ := readValue_append h ⟨honce.1, honce.2⟩
  rw [ofJson, hread]
  simp only [ok_bind, skipBlanks_blanks hb]
  rfl

/-- What a policy states in its own text. -/
theorem overlay_own (p : Policy) :
    overlay [.maxDepth p.maxDepth, .functions p.functions.toList] = p := by
  have hfunctions := p.functions.ofList_toList
  simp only [overlay, List.foldl_cons, List.foldl_nil, Entry.replace, withMaxDepth, withFunctions,
    hfunctions]

end Policy

open Policy Json

/-- A policy is read back from its text.  From the text of any object in which a depth of 64
bits and a list of functions are stated at most once each, the standard policy is read with
exactly these replaced. -/
theorem json_overlays_standard :
    (∀ p : Policy, p.maxDepth < 2 ^ 64 → ofJson p.toJson = .ok p) ∧
      ∀ (source : String) (es : List Entry), IsObject source.toList es → AtMostOnce es →
        ofJson source = .ok (overlay es) := by
  constructor
  · intro p hp
    have hobject := isObject_jsonText hp
    rw [← String.toList_ofList (l := p.jsonText)] at hobject
    have honce : AtMostOnce [.maxDepth p.maxDepth, .functions p.functions.toList] := by
      simp [AtMostOnce, Entry.name]
    rw [toJson, ofJson_of_isObject hobject honce, overlay_own]
  · intro source es hobject honce
    exact ofJson_of_isObject hobject honce

/-- A member of another name is passed over, also where a depth is stated further in: the depth
stays the standard one, and the functions are those that are stated. -/
theorem json_overlays_standard_nested :
    ofJson (standard.withMaxDepth 7).toJson = .ok (standard.withMaxDepth 7) ∧
      ofJson " \x7b\"note\":[\x7b\"max_depth\":7\x7d, null],\"functions\":[\"\\u006Fr\"]\x7d" =
        .ok ⟨100, .ofList ["or"]⟩ := by
  have hdepth := (isName_quoted "max_depth").isMember
    (.mk .nil (.number ⟨_, isNumeral_toDigits 7, .inl rfl⟩) .nil)
  have hnull : IsElement [' ', 'n', 'u', 'l', 'l'] :=
    .mk (by decide : AreBlanks [' ']) (.word List.mem_cons_self) .nil
  have hmembers := AreMembers.more (.item (.mk .nil (.filled true (.one hdepth)) .nil))
    (.one (.item hnull))
  have hnote := Entry.IsValue.other (by decide : "note" ≠ "max_depth") (by decide)
    (.mk .nil (.filled false hmembers) .nil)
  have hzero : HexDigit 0 '0' := .lower (by decide)
  have hsix : HexDigit 6 '6' := .lower (by decide)
  have hletter : HexDigit 15 'F' := .upper (by decide)
  have hescape : Escape ['u', '0', '0', '6', 'F'] 'o' := .number (.mk hzero hzero hsix hletter)
  have hspells : Spells "\\u006Fr".toList "or".toList :=
    .escaped hescape (.plain (by decide) (by decide) (by decide) .done)
  have hfunctions := Entry.IsValue.functions .nil (.filled (.one (.mk .nil hspells .nil))) .nil
  have hobject := IsObject.filled (by decide : AreBlanks [' '])
    (.more (isName_quoted "note") hnote (.one (isName_quoted "functions") hfunctions)) .nil
  obtain ⟨hread, hoverlay⟩ := json_overlays_standard
  exact ⟨hread _ (by decide), hoverlay _ [.other "note", .functions ["or"]] hobject (by decide)⟩

end MetricFormula
