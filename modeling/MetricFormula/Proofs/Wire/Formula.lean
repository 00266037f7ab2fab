/-
  Proofs/Wire/Formula: formulas, columns, policies and spans are read back from their bytes.

  What is written is `Portable`: no whole number in it and no length of a list or text in it
  exceeds 64 bits, as is the case for whatever a machine of 64 bits holds.  The reader of sums
  goes by levels, and so does the proof: over a reader for the sums of fewer bytes, factors,
  products and sums are decoded (`decodes_sumOver`), since the sums in a factor have fewer bytes
  than the factor.

  `RoundTrips` is what is promised of a pair of writer and reader, and all five pairs keep it
  (`wire_roundTrips`).
-/
import MetricFormula.Wire.Formula
import MetricFormula.Proofs.Wire.Basic

set_option autoImplicit false

namespace MetricFormula

open Wire

/-! ## What can be written -/

/-- A text of less than 2^64 bytes. -/
def TextPortable (s : String) : Prop := IsWord (textBytes s).length

instance (s : String) : Decidable (TextPortable s) :=
  inferInstanceAs (Decidable (IsWord (textBytes s).length))

mutual

/-- A sum whose lists and texts all have lengths of 64 bits. -/
inductive Sum.Portable : Sum → Prop
  | mk {positive negative : List Product} : IsWord positive.length → IsWord negative.length →
      (∀ p ∈ positive, Product.Portable p) → (∀ p ∈ negative, Product.Portable p) →
      Sum.Portable (.mk positive negative)

inductive Product.Portable : Product → Prop
  | mk {numerator denominator : List Factor} : IsWord numerator.length →
      IsWord denominator.length → (∀ x ∈ numerator, Factor.Portable x) →
      (∀ x ∈ denominator, Factor.Portable x) → Product.Portable (.mk numerator denominator)

inductive Factor.Portable : Factor → Prop
  | variable {name : String} : TextPortable name → Factor.Portable (.variable name)
  | constant (value : Binary64) : Factor.Portable (.constant value)
  | group {inner : Sum} : Sum.Portable inner → Factor.Portable (.group inner)
  | call {function : String} {arguments : List Sum} : TextPortable function →
      IsWord arguments.length → (∀ s ∈ arguments, Sum.Portable s) →
      Factor.Portable (.call function arguments)

end

/-- A set of fewer than 2^64 names, each of which can be written. -/
structure NameSet.Portable (s : NameSet) : Prop where
  length : IsWord s.toList.length
  names : ∀ x ∈ s.toList, TextPortable x

structure Formula.Portable (f : Formula) : Prop where
  source : TextPortable f.source
  ast : f.ast.Portable
  freeVariables : f.freeVariables.Portable

/-- A column of less than 2^64 samples. -/
def Column.Portable : Column → Prop
  | .scalar _ => True
  | .values samples => IsWord samples.length

structure Policy.Portable (p : Policy) : Prop where
  maxDepth : IsWord p.maxDepth
  functions : p.functions.Portable

structure Span.Portable (s : Span) : Prop where
  start : IsWord s.start
  stop : IsWord s.stop

namespace Wire

/-! ## One level of sums -/

/-- Products, factors and sums in a row are written one after the other. -/
theorem putProducts_eq (ps : List Product) : putProducts ps = ps.flatMap putProduct := by
  induction ps with
  | nil => rfl
  | cons p ps ih => rw [putProducts, List.flatMap_cons, ih]

theorem putFactors_eq (xs : List Factor) : putFactors xs = xs.flatMap putFactor := by
  induction xs with
  | nil => rfl
  | cons x xs ih => rw [putFactors, List.flatMap_cons, ih]

theorem putSums_eq (ss : List Sum) : putSums ss = ss.flatMap putSum := by
  induction ss with
  | nil => rfl
  | cons s ss ih => rw [putSums, List.flatMap_cons, ih]

theorem length_le_flatMap {α : Type} (put : α → Bytes) {a : α} {as : List α} (h : a ∈ as) :
    (put a).length ≤ (as.flatMap put).length := by
  obtain ⟨before, after, rfl⟩ := List.append_of_mem h
  simp only [List.flatMap_append, List.flatMap_cons, List.length_append]
  omega

/-- A reader that decodes the sums of fewer bytes than a bound. -/
def DecodesBelow (n : Nat) (p : Step Sum) : Prop :=
  ∀ s : Sum, s.Portable → (putSum s).length < n → Decodes p (putSum s) s

section Level

variable {inner : Step Sum} {n : Nat}

/-- A factor is decoded over a reader for the sums of fewer bytes than it has. -/
theorem decodes_factor (hinner : DecodesBelow n inner) : ∀ {x : Factor}, x.Portable →
    (putFactor x).length ≤ n → Decodes (takeFactor inner) (putFactor x) x
  | _, .variable hname, _ =>
      (decodes_variant (by decide)).andThen ((decodes_text hname).map Factor.variable)
  | _, .constant value, _ =>
      (decodes_variant (by decide)).andThen ((decodes_number value).map Factor.constant)
  | _, @Factor.Portable.group s hsum, hlength => by
      have hless : (putSum s).length < n := by
        have := length_putGroups_pos 4 3
        rw [putFactor, List.length_append, putVariant] at hlength
        omega
      exact (decodes_variant (by decide)).andThen ((hinner s hsum hless).map Factor.group)
  | _, @Factor.Portable.call function arguments hfunction hcount harguments, hlength => by
      rw [putFactor, putSums_eq] at hlength ⊢
      have hlevel : ∀ s ∈ arguments, Decodes inner (putSum s) s := by
        intro s hs
        refine hinner s (harguments s hs) ?_
        have := length_putGroups_pos 4 0
        have := length_le_flatMap putSum hs
        simp only [List.length_append, putVariant] at hlength
        omega
      rw [List.append_assoc]
      exact (decodes_variant (by decide)).andThen ((decodes_text hfunction).andThen
        ((decodes_list hcount hlevel).map (Factor.call function)))

/-- Two lists in a row are decoded if the elements of both are. -/
theorem decodes_lists {α β : Type} {p : Step α} {put : α → Bytes} {make : List α → List α → β}
    {as bs : List α} (has : IsWord as.length) (hbs : IsWord bs.length)
    (hinner : ∀ a ∈ as ++ bs, Decodes p (put a) a) :
    Decodes (Step.andThen (takeList p) fun as => Step.andThen (takeList p) fun bs =>
      Step.done (make as bs)) (putList put as ++ putList put bs) (make as bs) :=
  (decodes_list has fun a ha => hinner a (List.mem_append_left bs ha)).andThen
    ((decodes_list hbs fun a ha => hinner a (List.mem_append_right as ha)).map (make as))

theorem length_le_putLists {α : Type} {put : α → Bytes} {a : α} {as bs : List α}
    (h : a ∈ as ++ bs) : (put a).length ≤ (putList put as ++ putList put bs).length := by
  have hmem := length_le_flatMap put h
  simp only [putList, List.flatMap_append, List.length_append] at hmem ⊢
  omega

theorem putProduct_eq (numerator denominator : List Factor) :
    putProduct (.mk numerator denominator) =
      putList putFactor numerator ++ putList putFactor denominator := by
  rw [putProduct, putFactors_eq, putFactors_eq, putList, putList]

theorem decodes_product (hinner : DecodesBelow n inner) {p : Product} (hp : p.Portable)
    (hlength : (putProduct p).length ≤ n) :
    Decodes (takeProduct inner) (putProduct p) p := by
  obtain ⟨hnumerator, hdenominator, hfactors, hdivisors⟩ := hp
  rw [putProduct_eq] at hlength ⊢
  refine decodes_lists hnumerator hdenominator fun x hx => ?_
  exact decodes_factor hinner (List.forall_mem_append.mpr ⟨hfactors, hdivisors⟩ x hx)
    (Nat.le_trans (length_le_putLists hx) hlength)

theorem putSum_eq (positive negative : List Product) :
    putSum (.mk positive negative) =
      putList putProduct positive ++ putList putProduct negative := by
  rw [putSum, putProducts_eq, putProducts_eq, putList, putList]

theorem decodes_sumOver (hinner : DecodesBelow n inner) {s : Sum} (hs : s.Portable)
    (hlength : (putSum s).length ≤ n) :
    Decodes (takeSumOver inner) (putSum s) s := by
  obtain ⟨hpositive, hnegative, hadded, hsubtracted⟩ := hs
  rw [putSum_eq] at hlength ⊢
  refine decodes_lists hpositive hnegative fun p hp => ?_
  exact decodes_product hinner (List.forall_mem_append.mpr ⟨hadded, hsubtracted⟩ p hp)
    (Nat.le_trans (length_le_putLists hp) hlength)

end Level

/-! ## Sums -/

/-- With a level for every byte and one more, a sum is decoded. -/
theorem decodes_sumWithin (n : Nat) : DecodesBelow n (takeSumWithin n) := by
  induction n with
  | zero => exact fun s _ hlength => absurd hlength (Nat.not_lt_zero _)
  | succ n ih => exact fun s hs hlength => decodes_sumOver ih hs (Nat.le_of_lt_succ hlength)

theorem decodes_sum {s : Sum} (hs : s.Portable) : Decodes takeSum (putSum s) s := by
  intro rest
  refine decodes_sumWithin _ s hs ?_ rest
  rw [List.length_append]
  omega

/-! ## Sets, formulas, columns, policies and spans -/

theorem decodes_names {s : NameSet} (hs : s.Portable) : Decodes takeNames (putNames s) s := by
  have hlist := decodes_list hs.length fun x hx => decodes_text (hs.names x hx)
  have hnames := hlist.map NameSet.ofList
  rwa [NameSet.ofList_toList] at hnames

theorem decodes_formula {f : Formula} (hf : f.Portable) :
    Decodes takeFormula (putFormula f) f :=
  (decodes_text hf.source).andThen ((decodes_sum hf.ast).andThen
    ((decodes_names hf.freeVariables).map (Formula.mk f.source f.ast)))

theorem decodes_column {c : Column} (hc : c.Portable) : Decodes takeColumn (putColumn c) c := by
  cases c with
  | scalar value =>
      exact (decodes_variant (by decide)).andThen ((decodes_number value).map Column.scalar)
  | values samples =>
      have hsamples := decodes_list hc fun x _ => decodes_number x
      exact (decodes_variant (by decide)).andThen (hsamples.map Column.values)

theorem decodes_policy {p : Policy} (hp : p.Portable) : Decodes takePolicy (putPolicy p) p :=
  (decodes_nat hp.maxDepth).andThen ((decodes_names hp.functions).map (Policy.mk p.maxDepth))

theorem decodes_span {s : Span} (hs : s.Portable) : Decodes takeSpan (putSpan s) s :=
  (decodes_nat hs.start).andThen ((decodes_nat hs.stop).map (Span.mk s.start))

/-! ## Round trips -/

/-- What is put is taken from the front of any bytes, exactly, and no encoding is the beginning
of the encoding of another value. -/
structure RoundTrips {α : Type} (portable : α → Prop) (put : α → Bytes) (take : Step α) : Prop where
  decodes : ∀ a, portable a → ∀ rest, take (put a ++ rest) = .ok (a, rest)
  unambiguous : ∀ a b, portable a → portable b → put a <+: put b → a = b

theorem roundTrips_of_decodes {α : Type} {portable : α → Prop} {put : α → Bytes} {take : Step α}
    (h : ∀ a, portable a → Decodes take (put a) a) : RoundTrips portable put take where
  decodes := h
  unambiguous a b ha hb hp := (h a ha).eq_of_isPrefix (h b hb) hp

/-- Formulas, sums, columns, policies and spans are read back from their bytes, whatever comes
after. -/
theorem wire_roundTrips :
    RoundTrips Formula.Portable putFormula takeFormula ∧
      RoundTrips Sum.Portable putSum takeSum ∧
      RoundTrips Column.Portable putColumn takeColumn ∧
      RoundTrips Policy.Portable putPolicy takePolicy ∧
      RoundTrips Span.Portable putSpan takeSpan :=
  ⟨roundTrips_of_decodes fun _ => decodes_formula, roundTrips_of_decodes fun _ => decodes_sum,
    roundTrips_of_decodes fun _ => decodes_column, roundTrips_of_decodes fun _ => decodes_policy,
    roundTrips_of_decodes fun _ => decodes_span⟩

/-- A formula with a call in a group, a name beyond ASCII and a constant that is not a number. -/
def nestedFormula : Formula where
  source := "(é(NaN)) / x"
  ast := .mk [.mk [.group (.mk [.mk [.call "é" [.mk [.mk [.constant .nan] []] []]] []] [])]
    [.variable "x"]] []
  freeVariables := .ofList ["x"]

theorem portable_nestedFormula : nestedFormula.Portable where
  source := by decide +kernel
  ast := by
    have hfactor : ∀ {x : Factor}, x.Portable → Sum.Portable (.mk [.mk [x] []] []) := by
      intro x hx
      refine .mk (by simp [IsWord]) (by simp [IsWord]) ?_ (by simp)
      rw [List.forall_mem_singleton]
      exact .mk (by simp [IsWord]) (by simp [IsWord]) (List.forall_mem_singleton.mpr hx) (by simp)
    have hcall : Factor.Portable (.call "é" [.mk [.mk [.constant .nan] []] []]) :=
      .call (by decide +kernel) (by simp [IsWord])
        (List.forall_mem_singleton.mpr (hfactor (.constant .nan)))
    refine .mk (by simp [IsWord]) (by simp [IsWord]) ?_ (by simp)
    rw [List.forall_mem_singleton]
    exact .mk (by simp [IsWord]) (by simp [IsWord])
      (List.forall_mem_singleton.mpr (.group (hfactor hcall)))
      (List.forall_mem_singleton.mpr (.variable (by decide +kernel)))
  freeVariables := ⟨by decide +kernel, by decide +kernel⟩

/-- A formula and its sum, a column that holds NaN, and the greatest whole number, with and
without bytes after them. -/
theorem wire_roundTrips_nestedFormula :
    takeFormula (putFormula nestedFormula ++ [7]) = .ok (nestedFormula, [7]) ∧
      takeSum (putSum nestedFormula.ast ++ []) = .ok (nestedFormula.ast, []) ∧
      takeColumn (putColumn (.values [.nan, .zero]) ++ [0]) = .ok (.values [.nan, .zero], [0]) ∧
      takePolicy (putPolicy ⟨2 ^ 64 - 1, .empty⟩ ++ [128]) = .ok (⟨2 ^ 64 - 1, .empty⟩, [128]) ∧
      takeSpan (putSpan ⟨2 ^ 64 - 1, 0⟩ ++ []) = .ok (⟨2 ^ 64 - 1, 0⟩, []) ∧
      ¬putSpan ⟨0, 1⟩ <+: putSpan ⟨0, 2⟩ := by
  obtain ⟨hformula, hsum, hcolumn, hpolicy, hspan⟩ := wire_roundTrips
  have hsamples : Column.Portable (.values [.nan, .zero]) := show IsWord 2 by decide
  have hspans : Span.Portable ⟨0, 1⟩ ∧ Span.Portable ⟨0, 2⟩ :=
    ⟨⟨by decide, by decide⟩, ⟨by decide, by decide⟩⟩
  refine ⟨hformula.decodes _ portable_nestedFormula _, hsum.decodes _ portable_nestedFormula.ast _,
    hcolumn.decodes _ hsamples _, hpolicy.decodes _ ⟨by decide, ⟨by decide, by decide⟩⟩ _,
    hspan.decodes _ ⟨by decide, by decide⟩ _, fun h => ?_⟩
  exact absurd (hspan.unambiguous _ _ hspans.1 hspans.2 h) (by decide)

end Wire

end MetricFormula
