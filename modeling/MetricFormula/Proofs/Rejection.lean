/-
  Proofs/Rejection: what validation finds wrong with a text that matches the grammar.

  Two kinds of constructs offend: a literal that stands for no finite number, and a call of
  a function that is not allowed.  Validation succeeds if there is no offender, and
  otherwise names the one that ends first in the text, however they nest
  (`validate_first_offender`).
-/
import MetricFormula.Proofs.Interpretation.Failure
import MetricFormula.Proofs.Interpretation.Outcome
import MetricFormula.Proofs.Grammar.Sound
import Mathlib.Control.Monad.Basic

set_option autoImplicit false

namespace MetricFormula

open MetricFormula.Grammar

/-! ## The first of a list -/

/-- Where a list is in strict order, the first answer is that of the element before all
others that have one. -/
theorem findSome?_eq_some_iff_of_pairwise {α β : Type} {r : α → α → Prop} {f : α → Option β}
    {xs : List α} {b : β} (hxs : xs.Pairwise r) (hasymm : ∀ x y, r x y → ¬r y x) :
    xs.findSome? f = some b ↔
      ∃ x ∈ xs, f x = some b ∧ ∀ y ∈ xs, (f y).isSome = true → y ≠ x → r x y := by
  rw [List.findSome?_eq_some_iff]
  constructor
  · rintro ⟨ys, x, zs, rfl, hx, hys⟩
    refine ⟨x, List.mem_append_right ys List.mem_cons_self, hx, ?_⟩
    intro y hy hsome hne
    rcases List.mem_append.mp hy with hy | hy
    · rw [hys y hy] at hsome
      simp at hsome
    · have hzs := (List.pairwise_append.mp hxs).2.1
      exact List.rel_of_pairwise_cons hzs ((List.mem_cons.mp hy).resolve_left hne)
  · rintro ⟨x, hx, hfx, hfirst⟩
    obtain ⟨ys, zs, rfl⟩ := List.append_of_mem hx
    refine ⟨ys, x, zs, rfl, hfx, ?_⟩
    intro y hy
    have hyx : r y x := (List.pairwise_append.mp hxs).2.2 y hy x List.mem_cons_self
    cases hfy : f y with
    | none => rfl
    | some b' =>
        -- With an answer of its own, `y` would be after `x` as well.
        have hne : y ≠ x := by
          rintro rfl
          exact hasymm y y hyx hyx
        exact absurd (hfirst y (List.mem_append_left _ hy) (by rw [hfy]; rfl) hne) (hasymm y x hyx)

/-! ## Offenders -/

namespace Grammar.Construct

/-- A literal that stands for no finite number, or a call of a function that is not
allowed. -/
def Offends (functions : NameSet) : Construct → Prop
  | literal text _ => (literalNumber text.toList).isFinite = false
  | call name _ => name ∉ functions

/-- What is said of an offender: a literal is malformed at its first byte, and a call is
shown whole. -/
def fault : Construct → Fault
  | literal text span => .malformed span.start (.outOfRange text)
  | call name span => .unknownFunction name span

/-- The offender among constructs that ends first. -/
structure IsFirstOffender (functions : NameSet) (cs : List Construct) (c : Construct) :
    Prop where
  mem : c ∈ cs
  offends : c.Offends functions
  first : ∀ d ∈ cs, d.Offends functions → d ≠ c → c.span.stop < d.span.stop

variable {functions : NameSet} {c : Construct} {e : Fault}

/-- The fault of a construct whose literal is a numeral. -/
theorem fault?_eq_some_iff (hc : ∀ text span, c = .literal text span → IsNumeral text.toList) :
    c.fault? functions.contains = some e ↔ c.Offends functions ∧ e = c.fault := by
  cases c with
  | literal text span =>
      rw [fault?, literalValue_of_isNumeral (hc text span rfl), Offends, fault]
      cases (literalNumber text.toList).isFinite with
      | true => simp
      | false => simp [eq_comm]
  | call name span =>
      rw [fault?, Offends, fault, NameSet.contains]
      by_cases hname : name ∈ functions
      · simp [hname]
      · simp [hname, eq_comm]

theorem IsFirstOffender.of_mem_iff {cs ds : List Construct} (h : c.IsFirstOffender functions cs)
    (hmem : ∀ d, d ∈ ds ↔ d ∈ cs) : c.IsFirstOffender functions ds where
  mem := (hmem c).mpr h.mem
  offends := h.offends
  first d hd := h.first d ((hmem d).mp hd)

end Grammar.Construct

namespace Grammar.InOrder

open Construct

variable {functions : NameSet} {n m : Nat} {cs : List Construct} {c : Construct} {e : Fault}

theorem fault?_eq_some_iff (h : InOrder n m cs) (hc : c ∈ cs) :
    c.fault? functions.contains = some e ↔ c.Offends functions ∧ e = c.fault := by
  refine Construct.fault?_eq_some_iff ?_
  rintro text span rfl
  exact h.numeral text span hc

theorem isSome_fault?_iff (h : InOrder n m cs) (hc : c ∈ cs) :
    (c.fault? functions.contains).isSome = true ↔ c.Offends functions := by
  rw [Option.isSome_iff_exists]
  constructor
  · rintro ⟨e, he⟩
    exact ((h.fault?_eq_some_iff hc).mp he).1
  · intro hoffends
    exact ⟨c.fault, (h.fault?_eq_some_iff hc).mpr ⟨hoffends, rfl⟩⟩

/-- The first fault is that of the offender that ends first. -/
theorem findSome?_eq_some_iff (h : InOrder n m cs) :
    cs.findSome? (Construct.fault? functions.contains) = some e ↔
      ∃ c : Construct, c.IsFirstOffender functions cs ∧ e = c.fault := by
  rw [findSome?_eq_some_iff_of_pairwise h.ascending fun _ _ => Nat.lt_asymm]
  constructor
  · rintro ⟨c, hc, hfault, hfirst⟩
    obtain ⟨hoffends, rfl⟩ := (h.fault?_eq_some_iff hc).mp hfault
    exact ⟨c, ⟨hc, hoffends, fun d hd hd' => hfirst d hd ((h.isSome_fault?_iff hd).mpr hd')⟩, rfl⟩
  · rintro ⟨c, ⟨hc, hoffends, hfirst⟩, rfl⟩
    refine ⟨c, hc, (h.fault?_eq_some_iff hc).mpr ⟨hoffends, rfl⟩, ?_⟩
    intro d hd hsome
    exact hfirst d hd ((h.isSome_fault?_iff hd).mp hsome)

theorem findSome?_eq_none_iff (h : InOrder n m cs) :
    cs.findSome? (Construct.fault? functions.contains) = none ↔
      ∀ c ∈ cs, ¬c.Offends functions := by
  rw [List.findSome?_eq_none_iff]
  refine forall₂_congr fun c hc => ?_
  rw [← h.isSome_fault?_iff hc, Option.not_isSome_iff_eq_none]

end Grammar.InOrder

/-! ## Validation -/

/-- A text that does not nest too deeply and matches the grammar is validated exactly if no
construct in it offends, and otherwise the fault is that of the offender that ends first.
The constructs are found among the tokens of the text. -/
theorem validate_first_offender (p : Policy) (source : String)
    (hdepth : Nesting.check p.maxDepth source = .ok ())
    (htree : (Grammar.tree source).isOk = true) :
    ∃ ps, (∀ qs, CutAt (Cursor.ofString source) qs ↔ qs = ps) ∧
      ((∃ f, p.validate source = .ok f) ↔ ∀ c ∈ constructs ps, ¬c.Offends p.functions) ∧
      ∀ e, p.validate source = .error e ↔
        ∃ c : Construct, c.IsFirstOffender p.functions (constructs ps) ∧ e = c.fault := by
  cases ht : Grammar.tree source with
  | error frontier => simp [ht, Except.isOk, Except.toBool] at htree
  | ok t =>
      have hparse := Interpretation.parse_eq_ok.mpr ⟨hdepth, ht⟩
      obtain ⟨ps, n, m, hcut, hstands⟩ := tree_stands ht
      have hmem : ∀ c, c ∈ constructs ps ↔ c ∈ t.constructs := by
        intro c
        rw [hstands.mem_constructs, constructs]
        simp
      have horder := hstands.inOrder
      refine ⟨ps, fun qs => ⟨fun hqs => hqs.unique hcut, fun hqs => hqs ▸ hcut⟩, ?_, ?_⟩
      · simp only [hmem]
        rw [Policy.exists_validate_iff hparse, horder.findSome?_eq_none_iff]
      · intro e
        rw [Policy.validate_eq_error_iff hparse, horder.findSome?_eq_some_iff]
        refine exists_congr fun c => and_congr_left fun _ => ?_
        exact ⟨fun h => h.of_mem_iff hmem, fun h => h.of_mem_iff fun d => (hmem d).symm⟩

/-- A text in which a literal and three calls offend under the standard policy. -/
def fourOffenders : String := "norm(f(x) * g(1e999)) - h(1)"

theorem validate_first_offender_nested :
    Nesting.check Policy.standard.maxDepth fourOffenders = .ok () ∧
      (Grammar.tree fourOffenders).isOk = true ∧
      ∃ ps, CutAt (Cursor.ofString fourOffenders) ps ∧
        (Construct.call "f" ⟨5, 9⟩).IsFirstOffender Policy.standard.functions
          (constructs ps) := by
  have hdepth : Nesting.check Policy.standard.maxDepth fourOffenders = .ok () := by
    decide +kernel
  have htree : (Grammar.tree fourOffenders).isOk = true := by decide +kernel
  have hfault : (Policy.standard.validate fourOffenders).map Formula.source =
      .error (.unknownFunction "f" ⟨5, 9⟩) := by decide +kernel
  refine ⟨hdepth, htree, ?_⟩
  obtain ⟨ps, hcut, -, herror⟩ := validate_first_offender .standard fourOffenders hdepth htree
  cases hvalidate : Policy.standard.validate fourOffenders with
  | ok f => simp [hvalidate, Except.map] at hfault
  | error e =>
      simp only [hvalidate, Except.map, Except.error.injEq] at hfault
      obtain ⟨c, hfirst, rfl⟩ := (herror e).mp hvalidate
      cases c with
      | literal text span => simp [Construct.fault] at hfault
      | call name span =>
          obtain ⟨rfl, rfl⟩ := Fault.unknownFunction.inj hfault
          exact ⟨ps, (hcut ps).mpr rfl, hfirst⟩

end MetricFormula
