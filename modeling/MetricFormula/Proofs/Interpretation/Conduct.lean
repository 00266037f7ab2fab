/-
  Proofs/Interpretation/Conduct: how the calls of a walk follow the text.

  A stretch of the text from an offset `n` up to `m` brings about a stretch of calls.
  `Conducts n m cs calls written left` says that after the `calls` made before, it brings
  about the calls `written` and leaves the operands `left` to later calls: values are passed
  on, the operands stand in the order of the text, and the calls about each function call
  among the constructs `cs` enclose those about its arguments.

  Stretches that follow each other are put together by `append`; what they leave is taken
  up by a call about the whole stretch (`reduce`), or by a function call around it
  (`enclose`).  With these, every parse tree that stands in a text has its calls
  (`ExpressionStands.conducts`).
-/
import MetricFormula.Proofs.Grammar.Construct
import MetricFormula.Proofs.Interpretation.Passing

set_option autoImplicit false

namespace MetricFormula

open MetricFormula.Grammar

/-! ## The order of operands -/

/-- Where an operand comes from: the construct that its value was returned for, or the name
of the variable. -/
def placeOf (calls : List NumberedCall) : Operand Nat → Option Span
  | .value i => calls[i]?.map NumberedCall.span
  | .variable _ span => some span

/-- Each operand ends before the ones after it start. -/
def InTextOrder (calls : List NumberedCall) (xs : List (Operand Nat)) : Prop :=
  xs.Pairwise fun x y => ∃ s t, placeOf calls x = some s ∧ placeOf calls y = some t ∧
    s.stop ≤ t.start

/-- Operands from between two offsets, in the order of the text. -/
structure Row (calls : List NumberedCall) (n m : Nat) (xs : List (Operand Nat)) : Prop where
  within : ∀ x ∈ xs, ∃ s, placeOf calls x = some s ∧ n ≤ s.start ∧ s.start < s.stop ∧ s.stop ≤ m
  inTextOrder : InTextOrder calls xs

section Order

variable {calls more : List NumberedCall} {n k l m : Nat} {x : Operand Nat}
  {xs ys : List (Operand Nat)} {s : Span}

theorem placeOf_append (h : placeOf calls x = some s) : placeOf (calls ++ more) x = some s := by
  rcases x with i | ⟨name, span⟩
  · obtain ⟨c, hc, hspan⟩ := Option.map_eq_some_iff.mp h
    have hlt : i < calls.length := (List.getElem?_eq_some_iff.mp hc).1
    rw [placeOf, List.getElem?_append_left hlt, hc, Option.map_some, hspan]
  · exact h

theorem InTextOrder.extend (h : InTextOrder calls xs) : InTextOrder (calls ++ more) xs := by
  refine List.Pairwise.imp ?_ h
  rintro x y ⟨s, t, hs, ht, hle⟩
  exact ⟨s, t, placeOf_append hs, placeOf_append ht, hle⟩

theorem InTextOrder.sublist (h : InTextOrder calls ys) (hsub : xs.Sublist ys) :
    InTextOrder calls xs :=
  List.Pairwise.sublist hsub h

namespace Row

theorem nil : Row calls n m [] := ⟨by simp, .nil⟩

theorem singleton (hx : placeOf calls x = some s) (hn : n ≤ s.start) (hlt : s.start < s.stop)
    (hm : s.stop ≤ m) : Row calls n m [x] where
  within := by
    intro y hy
    obtain rfl := List.mem_singleton.mp hy
    exact ⟨s, hx, hn, hlt, hm⟩
  inTextOrder := List.pairwise_singleton _ _

theorem extend (h : Row calls n m xs) : Row (calls ++ more) n m xs where
  within := by
    intro x hx
    obtain ⟨s, hs, hbounds⟩ := h.within x hx
    exact ⟨s, placeOf_append hs, hbounds⟩
  inTextOrder := h.inTextOrder.extend

theorem mono (h : Row calls k l xs) (hn : n ≤ k) (hm : l ≤ m) : Row calls n m xs where
  within := by
    intro x hx
    obtain ⟨s, hs, hstart, hlt, hstop⟩ := h.within x hx
    exact ⟨s, hs, Nat.le_trans hn hstart, hlt, Nat.le_trans hstop hm⟩
  inTextOrder := h.inTextOrder

theorem append (hxs : Row calls n k xs) (hys : Row calls k m ys) (hn : n ≤ k) (hm : k ≤ m) :
    Row calls n m (xs ++ ys) where
  within := by
    intro x hx
    rcases List.mem_append.mp hx with hx | hx
    · exact (hxs.mono (Nat.le_refl n) hm).within x hx
    · exact (hys.mono hn (Nat.le_refl m)).within x hx
  inTextOrder := by
    refine List.pairwise_append.mpr ⟨hxs.inTextOrder, hys.inTextOrder, ?_⟩
    intro x hx y hy
    obtain ⟨s, hs, -, -, hstop⟩ := hxs.within x hx
    obtain ⟨t, ht, hstart, -, -⟩ := hys.within y hy
    exact ⟨s, t, hs, ht, Nat.le_trans hstop hstart⟩

end Row

end Order

/-! ## Calls about function calls -/

namespace NumberedCall

/-- A call is given what its kind cannot do without. -/
def Supplied : NumberedCall → Prop
  | expression positive _ _ => positive ≠ []
  | term numerator _ _ => numerator ≠ []
  | call _ arguments _ => arguments ≠ []
  | _ => True

/-- The function call that a call enters or completes. -/
def invocation : NumberedCall → Option (String × Span)
  | enterCall name span => some (name, span)
  | call name _ span => some (name, span)
  | _ => none

/-- A call about something between the name and the closing parenthesis of a function call. -/
def Inside (span : Span) (c : NumberedCall) : Prop :=
  span.start < c.span.start ∧ c.span.stop < span.stop

/-- A call that has to do neither with a function call nor with its arguments. -/
def Outside (span : Span) (c : NumberedCall) : Prop :=
  ¬ c.Inside span ∧ ∀ name, c.invocation ≠ some (name, span)

end NumberedCall

/-- A function call is entered once, completed once, and the calls in between are those
about its arguments. -/
def Brackets (name : String) (span : Span) (calls : List NumberedCall) : Prop :=
  ∃ before inside arguments after,
    calls = before ++ .enterCall name span :: (inside ++ .call name arguments span :: after) ∧
    (∀ c ∈ inside, c.Inside span) ∧ ∀ c ∈ before ++ after, c.Outside span

section Brackets

variable {c : NumberedCall} {calls before after : List NumberedCall} {name : String} {span : Span}

theorem NumberedCall.span_eq_of_invocation (h : c.invocation = some (name, span)) :
    c.span = span := by
  cases c with
  | enterCall _ _ => exact congrArg Prod.snd (Option.some.inj h)
  | call _ _ _ => exact congrArg Prod.snd (Option.some.inj h)
  | _ => simp [invocation] at h

/-- A call about something before or after a function call. -/
theorem NumberedCall.Outside.of_apart (hc : c.span.start < c.span.stop)
    (hspan : span.start < span.stop) (h : c.span.stop ≤ span.start ∨ span.stop ≤ c.span.start) :
    c.Outside span := by
  constructor
  · rintro ⟨hstart, hstop⟩
    omega
  · intro name hname
    rw [span_eq_of_invocation hname] at h
    omega

/-- A call about something that starts before a function call. -/
theorem NumberedCall.Outside.of_lt (h : c.span.start < span.start) : c.Outside span := by
  constructor
  · rintro ⟨hstart, -⟩
    omega
  · intro name hname
    rw [span_eq_of_invocation hname] at h
    omega

namespace Brackets

theorem enterCall_mem (h : Brackets name span calls) : .enterCall name span ∈ calls := by
  obtain ⟨before, inside, arguments, after, rfl, -, -⟩ := h
  simp

/-- Calls before it that have nothing to do with it. -/
theorem preceded (h : Brackets name span calls) (hbefore : ∀ c ∈ before, c.Outside span) :
    Brackets name span (before ++ calls) := by
  obtain ⟨first, inside, arguments, last, rfl, hinside, houtside⟩ := h
  refine ⟨before ++ first, inside, arguments, last, by simp, hinside, ?_⟩
  rw [List.append_assoc]
  exact List.forall_mem_append.mpr ⟨hbefore, houtside⟩

/-- Calls after it that have nothing to do with it. -/
theorem followed (h : Brackets name span calls) (hafter : ∀ c ∈ after, c.Outside span) :
    Brackets name span (calls ++ after) := by
  obtain ⟨first, inside, arguments, last, rfl, hinside, houtside⟩ := h
  refine ⟨first, inside, arguments, last ++ after, by simp, hinside, ?_⟩
  rw [← List.append_assoc]
  exact List.forall_mem_append.mpr ⟨houtside, hafter⟩

end Brackets

end Brackets

/-! ## Taking up what is left -/

/-- A call is given all that is left, in lists that keep its order, and returns a value. -/
structure NumberedCall.TakesUp (c : NumberedCall) (left : List (Operand Nat)) : Prop where
  all : c.lists.flatten.Perm left
  sublist : ∀ xs ∈ c.lists, xs.Sublist left
  supplied : c.Supplied
  returns : c.returns = true

namespace NumberedCall

open Interpretation

theorem expression_takesUp (a : Nat) (xs : List (AdditiveOperator × Nat)) (span : Span) :
    (expression (added a xs) (subtracted xs) span).TakesUp
      ([.value a] ++ xs.map fun x => .value x.2) where
  all := by
    have hperm := (added_append_subtracted_perm a xs).map Operand.value
    simpa [lists, Function.comp_def] using hperm
  sublist := by
    have hadded := (added_sublist a xs).map Operand.value
    have hsubtracted := (subtracted_sublist a xs).map Operand.value
    simpa [lists, Function.comp_def] using And.intro hadded hsubtracted
  supplied := by simp [Supplied, added]
  returns := rfl

theorem term_takesUp (x : Operand Nat) (xs : List (MultiplicativeOperator × Operand Nat))
    (span : Span) :
    (term (multiplied x xs) (divided xs) span).TakesUp ([x] ++ xs.map (·.2)) where
  all := by simpa [lists] using multiplied_append_divided_perm x xs
  sublist := by
    simpa [lists] using And.intro (multiplied_sublist x xs) (divided_sublist x xs)
  supplied := by simp [Supplied, multiplied]
  returns := rfl

theorem call_takesUp (name : String) (a : Nat) (as : List Nat) (span : Span) :
    (call name (a :: as) span).TakesUp ([.value a] ++ as.map .value) where
  all := by simp [lists]
  sublist := by simp [lists]
  supplied := by simp [Supplied]
  returns := rfl

theorem constant_takesUp (literal : String) (span : Span) :
    (constant literal span).TakesUp [] where
  all := by simp [lists]
  sublist := by simp [lists]
  supplied := trivial
  returns := rfl

theorem group_takesUp (inner : Nat) (span : Span) : (group inner span).TakesUp [.value inner] where
  all := by simp [lists]
  sublist := by simp [lists]
  supplied := trivial
  returns := rfl

end NumberedCall

/-! ## Stretches of calls -/

/-- A stretch of the text brings about calls after some others, and leaves operands. -/
structure Conducts (n m : Nat) (cs : List Construct) (calls written : List NumberedCall)
    (left : List (Operand Nat)) : Prop where
  passes : Passes calls.length written (left.filterMap Operand.value?)
  row : Row (calls ++ written) n m left
  within : ∀ c ∈ written, n ≤ c.span.start ∧ c.span.start < c.span.stop ∧ c.span.stop ≤ m
  inTextOrder : ∀ c ∈ written, ∀ xs ∈ c.lists, InTextOrder (calls ++ written) xs
  supplied : ∀ c ∈ written, c.Supplied
  invoked : ∀ c ∈ written, ∀ name span, c.invocation = some (name, span) → .call name span ∈ cs
  brackets : ∀ name span, .call name span ∈ cs → Brackets name span written

namespace Conducts

variable {n k l m : Nat} {cs ds : List Construct} {calls written more : List NumberedCall}
  {left left' : List (Operand Nat)} {c : NumberedCall}

theorem nil : Conducts n m [] calls [] [] where
  passes := .nil _
  row := .nil
  within := by simp
  inTextOrder := by simp
  supplied := by simp
  invoked := by simp
  brackets := by simp

/-- A variable brings about no call; it is left as it stands. -/
theorem reference (name : String) {span : Span} (hspan : span = ⟨n, k⟩) (hlt : n < k)
    (hle : k ≤ m) : Conducts n m [] calls [] [.variable name span] where
  passes := .nil _
  row := by
    subst hspan
    exact .singleton rfl (Nat.le_refl n) hlt hle
  within := by simp
  inTextOrder := by simp
  supplied := by simp
  invoked := by simp
  brackets := by simp

theorem mono (h : Conducts k l cs calls written left) (hn : n ≤ k) (hm : l ≤ m) :
    Conducts n m cs calls written left where
  passes := h.passes
  row := h.row.mono hn hm
  within := by
    intro c hc
    obtain ⟨hstart, hlt, hstop⟩ := h.within c hc
    exact ⟨Nat.le_trans hn hstart, hlt, Nat.le_trans hstop hm⟩
  inTextOrder := h.inTextOrder
  supplied := h.supplied
  invoked := h.invoked
  brackets := h.brackets

/-- Only the function calls among the constructs count. -/
theorem congr (h : Conducts n m cs calls written left)
    (hcs : ∀ name span, .call name span ∈ cs ↔ .call name span ∈ ds) :
    Conducts n m ds calls written left where
  passes := h.passes
  row := h.row
  within := h.within
  inTextOrder := h.inTextOrder
  supplied := h.supplied
  invoked c hc name span hname := (hcs name span).mp (h.invoked c hc name span hname)
  brackets name span hmem := h.brackets name span ((hcs name span).mpr hmem)

theorem span_within (h : Conducts n m cs calls written left) {name : String} {span : Span}
    (hmem : .call name span ∈ cs) : n ≤ span.start ∧ span.start < span.stop ∧ span.stop ≤ m :=
  h.within _ (h.brackets name span hmem).enterCall_mem

/-- A stretch and the one after it. -/
theorem append (h : Conducts n k cs calls written left)
    (h' : Conducts k m ds (calls ++ written) more left') (hn : n ≤ k) (hm : k ≤ m) :
    Conducts n m (cs ++ ds) calls (written ++ more) (left ++ left') where
  passes := by
    rw [List.filterMap_append]
    refine h.passes.append ?_
    rw [← List.length_append]
    exact h'.passes
  row := by
    rw [← List.append_assoc]
    exact h.row.extend.append h'.row hn hm
  within := List.forall_mem_append.mpr
    ⟨(h.mono (Nat.le_refl n) hm).within, (h'.mono hn (Nat.le_refl m)).within⟩
  inTextOrder := by
    rw [← List.append_assoc]
    exact List.forall_mem_append.mpr
      ⟨fun c hc xs hxs => (h.inTextOrder c hc xs hxs).extend, h'.inTextOrder⟩
  supplied := List.forall_mem_append.mpr ⟨h.supplied, h'.supplied⟩
  invoked := by
    intro c hc name span hname
    rcases List.mem_append.mp hc with hc | hc
    · exact List.mem_append_left _ (h.invoked c hc name span hname)
    · exact List.mem_append_right _ (h'.invoked c hc name span hname)
  brackets := by
    intro name span hmem
    rcases List.mem_append.mp hmem with hmem | hmem
    · obtain ⟨-, hlt, hstop⟩ := h.span_within hmem
      refine (h.brackets name span hmem).followed fun c hc => ?_
      obtain ⟨hstart, hc, -⟩ := h'.within c hc
      exact NumberedCall.Outside.of_apart hc hlt (.inr (Nat.le_trans hstop hstart))
    · obtain ⟨hstart, hlt, -⟩ := h'.span_within hmem
      refine (h'.brackets name span hmem).preceded fun c hc => ?_
      obtain ⟨-, hc, hstop⟩ := h.within c hc
      exact NumberedCall.Outside.of_apart hc hlt (.inl (Nat.le_trans hstop hstart))

theorem placeOf_length (calls written : List NumberedCall) (c : NumberedCall) :
    placeOf (calls ++ (written ++ [c])) (.value (calls ++ written).length) = some c.span := by
  rw [placeOf, ← List.append_assoc, List.getElem?_append_right (Nat.le_refl _), Nat.sub_self]
  rfl

/-- A call about a whole stretch takes up what the stretch left. -/
theorem reduce (h : Conducts n m cs calls written left) (hc : c.TakesUp left) (hlt : n < m)
    (hspan : c.span = ⟨n, m⟩) (hnone : c.invocation = none) :
    Conducts n m cs calls (written ++ [c]) [.value (calls ++ written).length] where
  passes := by
    rw [List.length_append]
    exact h.passes.reduce (hc.all.filterMap _) hc.returns
  row := by
    have hplace := placeOf_length calls written c
    rw [hspan] at hplace
    exact .singleton hplace (Nat.le_refl n) hlt (Nat.le_refl m)
  within := by
    refine List.forall_mem_append.mpr ⟨h.within, List.forall_mem_singleton.mpr ?_⟩
    rw [hspan]
    exact ⟨Nat.le_refl n, hlt, Nat.le_refl m⟩
  inTextOrder := by
    rw [← List.append_assoc]
    refine List.forall_mem_append.mpr
      ⟨fun c hc xs hxs => (h.inTextOrder c hc xs hxs).extend, List.forall_mem_singleton.mpr ?_⟩
    intro xs hxs
    exact (h.row.inTextOrder.sublist (hc.sublist xs hxs)).extend
  supplied := List.forall_mem_append.mpr ⟨h.supplied, List.forall_mem_singleton.mpr hc.supplied⟩
  invoked := by
    refine List.forall_mem_append.mpr ⟨h.invoked, List.forall_mem_singleton.mpr ?_⟩
    simp [hnone]
  brackets := by
    intro name span hmem
    -- The call may cover the very bytes of a function call, but it starts no later.
    refine (h.brackets name span hmem).followed (List.forall_mem_singleton.mpr ?_)
    obtain ⟨hstart, -, -⟩ := h.span_within hmem
    refine ⟨?_, by simp [hnone]⟩
    rintro ⟨hinside, -⟩
    rw [hspan] at hinside
    exact Nat.not_lt.mpr hstart hinside

/-- A function call around a stretch: it is entered before it, and completed with what the
stretch left. -/
theorem enclose {name : String} {arguments : List Nat}
    (h : Conducts k l cs (calls ++ [.enterCall name ⟨n, m⟩]) written left)
    (hc : (NumberedCall.call name arguments ⟨n, m⟩).TakesUp left) (hn : n < k) (hkl : k ≤ l)
    (hm : l < m) :
    Conducts n m (cs ++ [.call name ⟨n, m⟩]) calls
      ([.enterCall name ⟨n, m⟩] ++ (written ++ [.call name arguments ⟨n, m⟩]))
      [.value (calls ++ [NumberedCall.enterCall name ⟨n, m⟩] ++ written).length] where
  passes := by
    have hentered : Passes calls.length [.enterCall name ⟨n, m⟩] [] := .silent _ rfl rfl
    have hpasses := h.passes.reduce (hc.all.filterMap Operand.value?) hc.returns
    rw [List.length_append] at hpasses
    rw [List.length_append, List.length_append]
    exact hentered.append hpasses
  row := by
    have hplace := placeOf_length (calls ++ [NumberedCall.enterCall name ⟨n, m⟩]) written
      (.call name arguments ⟨n, m⟩)
    rw [List.append_assoc calls] at hplace
    have hlt : n < m := Nat.lt_of_lt_of_le hn (Nat.le_of_lt (Nat.lt_of_le_of_lt hkl hm))
    exact .singleton hplace (Nat.le_refl n) hlt (Nat.le_refl m)
  within := by
    have hlt : n < m := Nat.lt_of_lt_of_le hn (Nat.le_of_lt (Nat.lt_of_le_of_lt hkl hm))
    have hinner := (h.mono (Nat.le_of_lt hn) (Nat.le_of_lt hm)).within
    simp only [List.forall_mem_append, List.forall_mem_singleton]
    exact ⟨⟨Nat.le_refl n, hlt, Nat.le_refl m⟩, hinner, Nat.le_refl n, hlt, Nat.le_refl m⟩
  inTextOrder := by
    have hcalls : calls ++ ([.enterCall name ⟨n, m⟩] ++
          (written ++ [.call name arguments ⟨n, m⟩])) =
        calls ++ [.enterCall name ⟨n, m⟩] ++ written ++ [.call name arguments ⟨n, m⟩] := by simp
    simp only [hcalls, List.forall_mem_append, List.forall_mem_singleton]
    refine ⟨by simp [NumberedCall.lists], fun c hc xs hxs => ?_, fun xs hxs => ?_⟩
    · exact (h.inTextOrder c hc xs hxs).extend
    · exact (h.row.inTextOrder.sublist (hc.sublist xs hxs)).extend
  supplied := by
    simp only [List.forall_mem_append, List.forall_mem_singleton]
    exact ⟨trivial, h.supplied, hc.supplied⟩
  invoked := by
    have hwhole : ∀ name' span', some (name, ⟨n, m⟩) = some (name', span') →
        .call name' span' ∈ cs ++ [.call name ⟨n, m⟩] := by
      rintro name' span' hname
      obtain ⟨rfl, rfl⟩ := Prod.mk.inj (Option.some.inj hname)
      simp
    simp only [List.forall_mem_append, List.forall_mem_singleton]
    refine ⟨hwhole, fun c hc name' span' hname => ?_, hwhole⟩
    exact List.mem_append_left _ (h.invoked c hc name' span' hname)
  brackets := by
    intro name' span' hmem
    -- Function calls further in see two more calls from outside; the new one has the stretch
    -- for its inside.
    rcases List.mem_append.mp hmem with hmem | hmem
    · obtain ⟨hstart, -, -⟩ := h.span_within hmem
      have hlt : n < span'.start := Nat.lt_of_lt_of_le hn hstart
      refine ((h.brackets name' span' hmem).followed ?_).preceded ?_
      · exact List.forall_mem_singleton.mpr (.of_lt hlt)
      · exact List.forall_mem_singleton.mpr (.of_lt hlt)
    · obtain ⟨rfl, rfl⟩ := Construct.call.inj (List.mem_singleton.mp hmem)
      refine ⟨[], written, arguments, [], by simp, fun c hc => ?_, by simp⟩
      obtain ⟨hstart, -, hstop⟩ := h.within c hc
      exact ⟨Nat.lt_of_lt_of_le hn hstart, Nat.lt_of_le_of_lt hstop hm⟩

end Conducts

/-! ## The calls about a parse tree -/

namespace Grammar

open Handled Interpretation

mutual

/-- An expression brings about calls that leave its value. -/
theorem ExpressionStands.conducts :
    ∀ {t : ExpressionTree} {n m : Nat} {ps qs : List PlacedToken},
      ExpressionStands n ps t m qs → ∀ calls, ∃ written a,
        Writes calls (numbered.walk t) written a ∧
        Conducts n m t.constructs calls written [.value a]
  | .mk span first steps, _, _, _, _, .mk hfirst hsteps, calls => by
      obtain ⟨written, a, hwrites, hconducts⟩ := hfirst.conducts calls
      obtain ⟨more, xs, hmore, hmoreConducts⟩ := hsteps.conducts (calls ++ written)
      have hle := Nat.le_of_lt hfirst.lt
      have hlt := Nat.lt_of_lt_of_le hfirst.lt hsteps.le
      have hwhole := (hconducts.append hmoreConducts hle hsteps.le).reduce
        (NumberedCall.expression_takesUp a xs span) hlt rfl rfl
      refine ⟨_, _, hwrites.bind (hmore.bind (.expression _ _ _ _)), ?_⟩
      rw [← List.append_assoc, List.append_assoc calls]
      exact hwhole

theorem ExpressionStepsStand.conducts :
    ∀ {steps : List ExpressionStep} {n m : Nat} {ps qs : List PlacedToken},
      ExpressionStepsStand n ps steps m qs → ∀ calls, ∃ written xs,
        Writes calls (numbered.walkSteps steps) written xs ∧
        Conducts n m (ExpressionTree.stepConstructs steps) calls written
          (xs.map fun x => .value x.2)
  | [], _, _, _, _, .nil _, calls => ⟨[], [], .pure calls [], .nil⟩
  | .mk operator _ term :: steps, _, _, _, _, .cons hplace hstart hterm hsteps, calls => by
      obtain ⟨written, a, hwrites, hconducts⟩ := hterm.conducts calls
      obtain ⟨more, xs, hmore, hmoreConducts⟩ := hsteps.conducts (calls ++ written)
      have hwhole := hconducts.append hmoreConducts (Nat.le_of_lt hterm.lt) hsteps.le
      have hstep := hwrites.map (Prod.mk operator)
      exact ⟨written ++ more, (operator, a) :: xs, hstep.bind (hmore.map _),
        hwhole.mono (Nat.le_of_lt (Nat.lt_of_le_of_lt hplace hstart)) (Nat.le_refl _)⟩

theorem TermStands.conducts : ∀ {t : TermTree} {n m : Nat} {ps qs : List PlacedToken},
    TermStands n ps t m qs → ∀ calls, ∃ written a,
      Writes calls (numbered.walkTerm t) written a ∧
      Conducts n m t.constructs calls written [.value a]
  | .mk span first steps, _, _, _, _, .mk hfirst hsteps, calls => by
      obtain ⟨written, x, hwrites, hconducts⟩ := hfirst.conducts calls
      obtain ⟨more, xs, hmore, hmoreConducts⟩ := hsteps.conducts (calls ++ written)
      have hle := Nat.le_of_lt hfirst.lt
      have hlt := Nat.lt_of_lt_of_le hfirst.lt hsteps.le
      have hwhole := (hconducts.append hmoreConducts hle hsteps.le).reduce
        (NumberedCall.term_takesUp x xs span) hlt rfl rfl
      refine ⟨_, _, hwrites.bind (hmore.bind (.term _ _ _ _)), ?_⟩
      rw [← List.append_assoc, List.append_assoc calls]
      exact hwhole

theorem TermStepsStand.conducts :
    ∀ {steps : List TermStep} {n m : Nat} {ps qs : List PlacedToken},
      TermStepsStand n ps steps m qs → ∀ calls, ∃ written xs,
        Writes calls (numbered.walkTermSteps steps) written xs ∧
        Conducts n m (TermTree.stepConstructs steps) calls written (xs.map (·.2))
  | [], _, _, _, _, .nil _, calls => ⟨[], [], .pure calls [], .nil⟩
  | .mk operator _ factor :: steps, _, _, _, _, .cons hplace hstart hfactor hsteps, calls => by
      obtain ⟨written, x, hwrites, hconducts⟩ := hfactor.conducts calls
      obtain ⟨more, xs, hmore, hmoreConducts⟩ := hsteps.conducts (calls ++ written)
      have hwhole := hconducts.append hmoreConducts (Nat.le_of_lt hfactor.lt) hsteps.le
      have hstep := hwrites.map (Prod.mk operator)
      exact ⟨written ++ more, (operator, x) :: xs, hstep.bind (hmore.map _),
        hwhole.mono (Nat.le_of_lt (Nat.lt_of_le_of_lt hplace hstart)) (Nat.le_refl _)⟩

theorem FactorStands.conducts : ∀ {x : FactorTree} {n m : Nat} {ps qs : List PlacedToken},
    FactorStands n ps x m qs → ∀ calls, ∃ written a,
      Writes calls (numbered.walkFactor x) written a ∧
      Conducts n m x.constructs calls written [a]
  | _, _, _, _, _, @FactorStands.call n _ _ _ _ _ closing _ _ _ name first others _ _ hopening
      hstart hfirst hothers hclosing, calls => by
      have henter := Writes.enterCall calls name.text ⟨n, closing + 1⟩
      obtain ⟨written, a, hwrites, hconducts⟩ := hfirst.conducts
        (calls ++ [.enterCall name.text ⟨n, closing + 1⟩])
      obtain ⟨more, as, hmore, hmoreConducts⟩ := hothers.conducts
        (calls ++ [.enterCall name.text ⟨n, closing + 1⟩] ++ written)
      have hcall := Writes.call
        (calls ++ [.enterCall name.text ⟨n, closing + 1⟩] ++ written ++ more)
        name.text (a :: as) ⟨n, closing + 1⟩
      have hinside := hconducts.append hmoreConducts (Nat.le_of_lt hfirst.lt) hothers.le
      have hwhole := hinside.enclose (NumberedCall.call_takesUp name.text a as ⟨n, closing + 1⟩)
        (Nat.lt_trans hopening hstart) (Nat.le_trans (Nat.le_of_lt hfirst.lt) hothers.le)
        (Nat.lt_succ_of_le hclosing)
      refine ⟨_, _, henter.bind (hwrites.bind (hmore.bind (hcall.map Operand.value))), ?_⟩
      rw [FactorTree.constructs, ← List.append_assoc first.constructs, ← List.append_assoc written,
        List.append_assoc _ written]
      exact hwhole
  | .reference _ name, _, _, _, _, .reference hspan hlt hle _, calls =>
      ⟨[], .variable name.text name.span, .pure calls _, .reference name.text hspan hlt hle⟩
  | .constant literal, n, m, _, _, .constant _ hspan hlt, calls => by
      have hconstant := Writes.constant calls literal.text literal.span
      have hnothing : Conducts n m [] calls [] [] := .nil
      have hwhole := hnothing.reduce (NumberedCall.constant_takesUp literal.text literal.span)
        hlt hspan rfl
      rw [List.append_nil] at hwhole
      refine ⟨_, _, hconstant.map Operand.value, hwhole.congr fun name span => ?_⟩
      simp [FactorTree.constructs]
  | .group inner, _, _, _, _, .group hstart hinner hclosing, calls => by
      obtain ⟨written, a, hwrites, hconducts⟩ := hinner.conducts calls
      have hgroup := Writes.group (calls ++ written) a inner.span
      have hwhole := hconducts.reduce (NumberedCall.group_takesUp a inner.span) hinner.lt
        hinner.span_eq rfl
      exact ⟨_, _, hwrites.bind (hgroup.map Operand.value),
        hwhole.mono (Nat.le_of_lt hstart) (Nat.le_succ_of_le hclosing)⟩

theorem ArgumentsStand.conducts :
    ∀ {es : List ExpressionTree} {n m : Nat} {ps qs : List PlacedToken},
      ArgumentsStand n ps es m qs → ∀ calls, ∃ written as,
        Writes calls (numbered.walkArguments es) written as ∧
        Conducts n m (ExpressionTree.argumentConstructs es) calls written (as.map .value)
  | [], _, _, _, _, .nil _, calls => ⟨[], [], .pure calls [], .nil⟩
  | e :: es, _, _, _, _, .cons hplace hstart he hes, calls => by
      obtain ⟨written, a, hwrites, hconducts⟩ := he.conducts calls
      obtain ⟨more, as, hmore, hmoreConducts⟩ := hes.conducts (calls ++ written)
      have hwhole := hconducts.append hmoreConducts (Nat.le_of_lt he.lt) hes.le
      exact ⟨written ++ more, a :: as, hwrites.bind (hmore.map _),
        hwhole.mono (Nat.le_of_lt (Nat.lt_of_le_of_lt hplace hstart)) (Nat.le_refl _)⟩

end

end Grammar

end MetricFormula
