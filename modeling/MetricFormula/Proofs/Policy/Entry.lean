/-
  Proofs/Policy/Entry: what the members of an object state about a policy.

  `IsObject` relates the text of an object to its members: the depths and the functions that
  are stated, with any spelling and any blanks, and other members with any value.  Each member
  is read up to the comma or the brace after it (`readMember_append`), so a whole object is read
  as its members one after another (`readValue_append`).

  The members may come in any order, but neither of the two may be read when it has been read
  before; `Fresh` is what is left of this when some members have been read.

  A name is a string of characters, so surrogates in it come in pairs.  In values that are
  passed over they need not.
-/
import MetricFormula.Policy.Json
import MetricFormula.Proofs.Json.Value

set_option autoImplicit false

namespace MetricFormula.Policy

open MetricFormula.Json

/-! ## Members and their texts -/

/-- A member of an object that is read as a policy. -/
inductive Entry where
  | maxDepth (n : Nat)
  | functions (names : List String)
  | other (name : String)
  deriving DecidableEq, Repr

namespace Entry

/-- The name of a member. -/
def name : Entry → String
  | maxDepth _ => "max_depth"
  | functions _ => "functions"
  | other name => name

/-- The policy with what a member states. -/
def replace (p : Policy) : Entry → Policy
  | maxDepth n => p.withMaxDepth n
  | functions names => p.withFunctions names
  | other _ => p

end Entry

/-- A name in quotes and the blanks around it. -/
inductive IsName : List Char → String → Prop
  | mk {b body b' : List Char} {name : String} :
      AreBlanks b → Spells body name.toList → AreBlanks b' →
        IsName (b ++ '"' :: body ++ '"' :: b') name

/-- At least one name, with commas between them. -/
inductive AreNames : List Char → List String → Prop
  | one {cs : List Char} {name : String} : IsName cs name → AreNames cs [name]
  | more {cs ds : List Char} {name : String} {names : List String} :
      IsName cs name → AreNames ds names → AreNames (cs ++ ',' :: ds) (name :: names)

/-- A list of names, of which there may be none. -/
inductive IsNameList : List Char → List String → Prop
  | empty {b : List Char} : AreBlanks b → IsNameList ('[' :: b ++ [']']) []
  | filled {cs : List Char} {names : List String} :
      AreNames cs names → IsNameList ('[' :: cs ++ [']']) names

/-- The text of the value of a member, with the blanks around it.  A depth is a whole number
of 64 bits, functions are a list of names, and other members have any value. -/
inductive Entry.IsValue : Entry → List Char → Prop
  | maxDepth {b ds b' : List Char} :
      AreBlanks b → IsNumeral ⟨ds, none, none⟩ → Decimal.natural ds < 2 ^ 64 → AreBlanks b' →
        IsValue (.maxDepth (Decimal.natural ds)) (b ++ ds ++ b')
  | functions {b cs b' : List Char} {names : List String} :
      AreBlanks b → IsNameList cs names → AreBlanks b' →
        IsValue (.functions names) (b ++ cs ++ b')
  | other {name : String} {cs : List Char} :
      name ≠ "max_depth" → name ≠ "functions" → IsElement cs → IsValue (.other name) cs

/-- At least one member, with commas between them. -/
inductive AreEntries : List Char → List Entry → Prop
  | one {cs v : List Char} {e : Entry} :
      IsName cs e.name → e.IsValue v → AreEntries (cs ++ ':' :: v) [e]
  | more {cs v ds : List Char} {e : Entry} {es : List Entry} :
      IsName cs e.name → e.IsValue v → AreEntries ds es →
        AreEntries (cs ++ ':' :: v ++ ',' :: ds) (e :: es)

/-- The text of an object with the given members, and the blanks around it. -/
inductive IsObject : List Char → List Entry → Prop
  | empty {b inner b' : List Char} :
      AreBlanks b → AreBlanks inner → AreBlanks b' →
        IsObject (b ++ '\x7b' :: inner ++ '\x7d' :: b') []
  | filled {b cs b' : List Char} {es : List Entry} :
      AreBlanks b → AreEntries cs es → AreBlanks b' →
        IsObject (b ++ '\x7b' :: cs ++ '\x7d' :: b') es

/-! ## These texts are values -/

theorem IsName.isMember {cs v : List Char} {name : String} (h : IsName cs name)
    (hv : IsElement v) : IsMember true (cs ++ ':' :: v) := by
  cases h with
  | mk hb hbody hb' => exact .named hb hbody.isStringBody hb' hv

theorem AreNames.areMembers {cs : List Char} {names : List String} (h : AreNames cs names) :
    AreMembers false cs := by
  have hitem : ∀ {cs name}, IsName cs name → IsMember false cs := by
    intro cs name hname
    cases hname with
    | @mk b body b' name hb hbody hb' =>
        have helement := IsElement.mk hb (.string hbody.isStringBody) hb'
        exact .item (by simpa using helement)
  induction h with
  | one hname => exact .one (hitem hname)
  | more hname _ ih => exact .more (hitem hname) ih

theorem Entry.IsValue.isElement {e : Entry} {v : List Char} (h : e.IsValue v) : IsElement v := by
  cases h with
  | @maxDepth b ds b' hb hds _ hb' =>
      have htext : ds = (⟨ds, none, none⟩ : Decimal.Numeral).text := by
        simp [Decimal.Numeral.text]
      exact .mk hb (.number ⟨_, hds, .inl htext⟩) hb'
  | functions hb hcs hb' =>
      cases hcs with
      | empty hinner => exact .mk hb (.empty false hinner) hb'
      | filled hnames => exact .mk hb (.filled false hnames.areMembers) hb'
  | other _ _ helement => exact helement

theorem AreEntries.areMembers {cs : List Char} {es : List Entry} (h : AreEntries cs es) :
    AreMembers true cs := by
  induction h with
  | one hname hv => exact .one (hname.isMember hv.isElement)
  | more hname hv _ ih => exact .more (hname.isMember hv.isElement) ih

/-- The text of an object with members is that of a value. -/
theorem IsObject.isElement {cs : List Char} {es : List Entry} (h : IsObject cs es) :
    IsElement cs := by
  cases h with
  | empty hb hinner hb' =>
      have helement := IsElement.mk hb (.empty true hinner) hb'
      simpa [opening, closing] using helement
  | filled hb hcs hb' =>
      have helement := IsElement.mk hb (.filled true hcs.areMembers) hb'
      simpa [opening, closing] using helement

/-! ## Names are read -/

theorem IsName.exists_skipBlanks {cs : List Char} {name : String} (h : IsName cs name) :
    ∃ body b, AreBlanks b ∧ Spells body name.toList ∧
      ∀ rest, skipBlanks (cs ++ rest) = '"' :: (body ++ '"' :: (b ++ rest)) := by
  cases h with
  | @mk b body b' name hb hbody hb' =>
      refine ⟨body, b', hb', hbody, ?_⟩
      intro rest
      have hskip := skipBlanks_append hb (c := '"') rfl (body ++ '"' :: (b' ++ rest))
      simpa using hskip

theorem IsName.head?_skipBlanks {cs : List Char} {name : String} (h : IsName cs name)
    (rest : List Char) : (skipBlanks (cs ++ rest)).head? = some '"' := by
  obtain ⟨body, b, -, -, hskip⟩ := h.exists_skipBlanks
  rw [hskip, List.head?_cons]

/-- A name is read up to its closing quote. -/
theorem readName_append {cs : List Char} {name : String} (h : IsName cs name) :
    ∃ b, AreBlanks b ∧ ∀ rest, readName (cs ++ rest) = .ok (name, b ++ rest) := by
  obtain ⟨body, b, hb, hbody, hskip⟩ := h.exists_skipBlanks
  refine ⟨b, hb, ?_⟩
  intro rest
  rw [readName, hskip]
  simp only [if_true, string_append hbody, String.ofList_toList]

theorem AreNames.head?_skipBlanks {cs : List Char} {names : List String} (h : AreNames cs names)
    (rest : List Char) : (skipBlanks (cs ++ rest)).head? = some '"' := by
  cases h with
  | one hname => exact hname.head?_skipBlanks rest
  | more hname _ =>
      rw [List.append_assoc]
      exact hname.head?_skipBlanks _

/-- Names are read with the closing bracket. -/
theorem readNamesWithin_append {cs : List Char} {names : List String} (h : AreNames cs names)
    {n : Nat} (hn : cs.length < n) (rest : List Char) :
    readNamesWithin n (cs ++ ']' :: rest) = .ok (names, rest) := by
  induction h generalizing n with
  | one hname =>
      obtain ⟨n, rfl⟩ : ∃ k, n = k + 1 := ⟨n - 1, by omega⟩
      obtain ⟨b, hb, hread⟩ := readName_append hname
      have hskip := skipBlanks_append hb (c := ']') rfl rest
      simp only [readNamesWithin, ok_bind, hread, hskip, if_true, pure_eq_ok]
  | @more cs ds name names hname hnames ih =>
      obtain ⟨n, rfl⟩ : ∃ k, n = k + 1 := ⟨n - 1, by omega⟩
      obtain ⟨b, hb, hread⟩ := readName_append hname
      have hskip := skipBlanks_append hb (c := ',') rfl (ds ++ ']' :: rest)
      have hnext := hnames.head?_skipBlanks (']' :: rest)
      have hrest := ih (n := n) (by simp at hn; omega)
      rw [List.append_assoc, List.cons_append]
      simp only [readNamesWithin, ok_bind, hread, hskip, hnext, hrest, pure_eq_ok]
      rfl

/-! ## Values are read -/

/-- A depth is read up to the character after it. -/
theorem readDepth_append {b ds b' : List Char} (hb : AreBlanks b)
    (hds : IsNumeral ⟨ds, none, none⟩) (hfits : Decimal.natural ds < 2 ^ 64)
    (hb' : AreBlanks b') {c : Char} (hc : Separates c) (rest : List Char) :
    readDepth (b ++ ds ++ b' ++ c :: rest) = .ok (Decimal.natural ds, b' ++ c :: rest) := by
  have hread := number_append hds hfits (Ends.of_separates hc hb' rest)
  obtain ⟨d, es, rfl, hd⟩ := hds.exists_head
  have hstarts : startsNumber d = true := by simp [startsNumber, hd]
  have hblank : isBlank d = false := isBlank_of_startsValue (by simp [startsValue, hstarts])
  have hskip := skipBlanks_append hb hblank (es ++ (b' ++ c :: rest))
  rw [List.append_assoc, List.append_assoc, List.cons_append, readDepth, hskip]
  rw [List.cons_append] at hread
  simp only [hstarts, if_true, ok_bind, hread, pure_eq_ok]

/-- Functions are read up to the closing bracket. -/
theorem readFunctions_append {cs : List Char} {names : List String} (h : IsNameList cs names)
    {b : List Char} (hb : AreBlanks b) (rest : List Char) :
    readFunctions (b ++ (cs ++ rest)) = .ok (.ofList names, rest) := by
  cases h with
  | @empty inner hinner =>
      have hskip := skipBlanks_append hb (c := '[') rfl (inner ++ ']' :: rest)
      have hclose := skipBlanks_append hinner (c := ']') rfl rest
      have htext : '[' :: inner ++ [']'] ++ rest = '[' :: (inner ++ ']' :: rest) := by simp
      rw [htext, readFunctions, hskip]
      simp only [if_true, hclose]
      rfl
  | @filled cs names hcs =>
      have hskip := skipBlanks_append hb (c := '[') rfl (cs ++ ']' :: rest)
      obtain ⟨tail, htail⟩ := List.head?_eq_some_iff.mp (hcs.head?_skipBlanks (']' :: rest))
      have hread := readNamesWithin_append hcs (n := (cs ++ ']' :: rest).length) (by simp) rest
      have htext : '[' :: cs ++ [']'] ++ rest = '[' :: (cs ++ ']' :: rest) := by simp
      rw [htext, readFunctions, hskip]
      simp only [if_true, htail, ok_bind, hread, pure_eq_ok]
      rfl

/-! ## Members are read -/

/-- The members that have been read with one more. -/
def Members.take (m : Members) : Entry → Members
  | .maxDepth n => ⟨some n, m.functions⟩
  | .functions names => ⟨m.maxDepth, some (.ofList names)⟩
  | .other _ => m

/-- The depth and the functions are stated once at most, counting what has been read. -/
structure Fresh (m : Members) (es : List Entry) : Prop where
  maxDepth : (es.map Entry.name).count "max_depth" + m.maxDepth.toList.length ≤ 1
  functions : (es.map Entry.name).count "functions" + m.functions.toList.length ≤ 1

section Fresh

variable {m : Members} {es : List Entry}

theorem Fresh.maxDepth_eq_none {n : Nat} (h : Fresh m (.maxDepth n :: es)) : m.maxDepth = none := by
  have hcount := h.maxDepth
  cases hdepth : m.maxDepth with
  | none => rfl
  | some k => simp [Entry.name, hdepth] at hcount

theorem Fresh.functions_eq_none {names : List String} (h : Fresh m (.functions names :: es)) :
    m.functions = none := by
  have hcount := h.functions
  cases hfunctions : m.functions with
  | none => rfl
  | some s => simp [Entry.name, hfunctions] at hcount

/-- What has been read in addition is no longer to come. -/
theorem Fresh.take {e : Entry} (h : Fresh m (e :: es)) {v : List Char} (hv : e.IsValue v) :
    Fresh (m.take e) es := by
  have hdepth := h.maxDepth
  have hfunctions := h.functions
  rw [List.map_cons, List.count_cons] at hdepth hfunctions
  cases hv with
  | maxDepth _ _ _ _ =>
      rw [if_pos (by rfl)] at hdepth
      refine ⟨?_, Nat.le_trans (by simp [Members.take]) hfunctions⟩
      change _ + 1 ≤ 1
      omega
  | functions _ _ _ =>
      rw [if_pos (by rfl)] at hfunctions
      refine ⟨Nat.le_trans (by simp [Members.take]) hdepth, ?_⟩
      change _ + 1 ≤ 1
      omega
  | other _ _ _ =>
      exact ⟨Nat.le_trans (by simp [Members.take]) hdepth,
        Nat.le_trans (by simp [Members.take]) hfunctions⟩

end Fresh

theorem separates_brace : Separates '\x7d' := separates_closing true

/-- A member is read from after its name up to the character after it. -/
theorem readMember_append {m : Members} {e : Entry} {es : List Entry} (hfresh : Fresh m (e :: es))
    {v : List Char} (hv : e.IsValue v) {b : List Char} (hb : AreBlanks b) {c : Char}
    (hc : Separates c) (rest : List Char) :
    ∃ b', AreBlanks b' ∧
      readMember m e.name (b ++ ':' :: (v ++ c :: rest)) = .ok (m.take e, b' ++ c :: rest) := by
  have hcolon := colon_append hb (v ++ c :: rest)
  cases hv with
  | @maxDepth b₁ ds b₂ hb₁ hds hfits hb₂ =>
      have hnone := hfresh.maxDepth_eq_none
      have hread := readDepth_append hb₁ hds hfits hb₂ hc rest
      refine ⟨b₂, hb₂, ?_⟩
      simp only [readMember, Entry.name, if_true, hnone, Option.isSome_none, Bool.false_eq_true,
        if_false, ok_bind, hcolon, hread, pure_eq_ok]
      rfl
  | @functions b₁ cs b₂ names hb₁ hcs hb₂ =>
      have hnone := hfresh.functions_eq_none
      have hread := readFunctions_append hcs hb₁ (b₂ ++ c :: rest)
      have htext : b₁ ++ cs ++ b₂ ++ c :: rest = b₁ ++ (cs ++ (b₂ ++ c :: rest)) := by simp
      have hne : ("functions" : String) ≠ "max_depth" := by decide
      refine ⟨b₂, hb₂, ?_⟩
      rw [htext] at hcolon ⊢
      simp only [readMember, Entry.name, hne, if_true, hnone, Option.isSome_none,
        Bool.false_eq_true, if_false, ok_bind, hcolon, hread, pure_eq_ok]
      rfl
  | @other name cs hne hne' helement =>
      obtain ⟨b', hb', hskip⟩ := helement.skip hc rest
      refine ⟨b', hb', ?_⟩
      simp only [readMember, Entry.name, hne, hne', if_false, ok_bind, hcolon, hskip, pure_eq_ok]
      rfl

/-- What follows a member decides how to go on. -/
theorem readMembersWithin_entry {m : Members} {e : Entry} {es : List Entry}
    (hfresh : Fresh m (e :: es)) {cs v : List Char} (hcs : IsName cs e.name) (hv : e.IsValue v)
    {c : Char} (hc : Separates c) (n : Nat) (rest : List Char) :
    readMembersWithin (n + 1) m (cs ++ ':' :: (v ++ c :: rest)) =
      if c = '\x7d' then .ok (m.take e, rest)
      else if c = ',' then readMembersWithin n (m.take e) rest
      else .error .notJson := by
  obtain ⟨body, b, hb, hbody, hskip⟩ := hcs.exists_skipBlanks
  obtain ⟨b', hb', hread⟩ := readMember_append hfresh hv hb hc rest
  have hname := string_append hbody (b ++ ':' :: (v ++ c :: rest))
  have hnext := skipBlanks_append hb' hc.isBlank rest
  rw [String.ofList_toList] at hname
  simp only [readMembersWithin, hskip, if_true, ok_bind, hname, hread, hnext, pure_eq_ok]
  rfl

/-- Members are read one after another, with the closing brace. -/
theorem readMembersWithin_append {cs : List Char} {es : List Entry} (h : AreEntries cs es)
    {m : Members} (hfresh : Fresh m es) {n : Nat} (hn : cs.length < n) (rest : List Char) :
    readMembersWithin n m (cs ++ '\x7d' :: rest) = .ok (es.foldl Members.take m, rest) := by
  induction h generalizing m n with
  | one hname hv =>
      obtain ⟨n, rfl⟩ : ∃ k, n = k + 1 := ⟨n - 1, by omega⟩
      rw [List.append_assoc, List.cons_append,
        readMembersWithin_entry hfresh hname hv separates_brace, if_pos rfl]
      rfl
  | @more cs v ds e es hname hv _ ih =>
      obtain ⟨n, rfl⟩ : ∃ k, n = k + 1 := ⟨n - 1, by omega⟩
      have hrest := ih (hfresh.take hv) (n := n) (by simp at hn; omega)
      have htext : cs ++ ':' :: v ++ ',' :: ds ++ '\x7d' :: rest =
          cs ++ ':' :: (v ++ ',' :: (ds ++ '\x7d' :: rest)) := by
        simp
      rw [htext, readMembersWithin_entry hfresh hname hv separates_comma, if_neg (by decide),
        if_pos rfl, hrest]
      rfl

/-! ## Objects are read -/

theorem readMembersWithin_skipBlanks (n : Nat) (m : Members) (cs : List Char) :
    readMembersWithin n m (skipBlanks cs) = readMembersWithin n m cs := by
  cases n with
  | zero => rfl
  | succ n => simp only [readMembersWithin, skipBlanks_skipBlanks]

/-- What members state replaces the standard. -/
theorem ofMembers_take (m : Members) (e : Entry) :
    ofMembers (m.take e) = e.replace (ofMembers m) := by
  cases e <;> rfl

theorem ofMembers_foldl (es : List Entry) (m : Members) :
    ofMembers (es.foldl Members.take m) = es.foldl Entry.replace (ofMembers m) := by
  induction es generalizing m with
  | nil => rfl
  | cons e es ih => rw [List.foldl_cons, ih, ofMembers_take, List.foldl_cons]

theorem AreEntries.head?_skipBlanks {cs : List Char} {es : List Entry} (h : AreEntries cs es)
    (rest : List Char) : (skipBlanks (cs ++ rest)).head? = some '"' := by
  cases h with
  | one hname _ =>
      rw [List.append_assoc]
      exact hname.head?_skipBlanks _
  | more hname _ _ =>
      rw [List.append_assoc, List.append_assoc]
      exact hname.head?_skipBlanks _

/-- The members of an object are read from after its opening brace. -/
theorem readObject_append {cs : List Char} {es : List Entry} (h : AreEntries cs es)
    (hfresh : Fresh .none es) (rest : List Char) :
    readObject (cs ++ '\x7d' :: rest) = .ok (es.foldl Entry.replace standard, rest) := by
  -- The reader has passed over the blanks in front when it turns to the members.
  obtain ⟨tail, htail⟩ := List.head?_eq_some_iff.mp (h.head?_skipBlanks ('\x7d' :: rest))
  have hread := readMembersWithin_append h hfresh (n := (cs ++ '\x7d' :: rest).length) (by simp)
    rest
  rw [← readMembersWithin_skipBlanks, htail] at hread
  have hmembers : ofMembers (es.foldl Members.take .none) = es.foldl Entry.replace standard :=
    ofMembers_foldl es .none
  rw [readObject, htail]
  simp only [ok_bind, hread, hmembers, pure_eq_ok]
  rfl

/-- An object is read with the blanks in front of it; those after it are left. -/
theorem readValue_append {cs : List Char} {es : List Entry} (h : IsObject cs es)
    (hfresh : Fresh .none es) :
    ∃ b, AreBlanks b ∧ readValue cs = .ok (es.foldl Entry.replace standard, b) := by
  cases h with
  | @empty b inner b' hb hinner hb' =>
      have hskip := skipBlanks_append hb (c := '\x7b') rfl (inner ++ '\x7d' :: b')
      have hclose := skipBlanks_append hinner (c := '\x7d') rfl b'
      refine ⟨b', hb', ?_⟩
      rw [List.append_assoc, List.cons_append, readValue, hskip]
      simp only [readObject, hclose]
      rfl
  | @filled b cs b' es hb hcs hb' =>
      have hskip := skipBlanks_append hb (c := '\x7b') rfl (cs ++ '\x7d' :: b')
      refine ⟨b', hb', ?_⟩
      rw [List.append_assoc, List.cons_append, readValue, hskip]
      exact readObject_append hcs hfresh b'

end MetricFormula.Policy
