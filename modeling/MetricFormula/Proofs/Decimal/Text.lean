/-
  Proofs/Decimal/Text: what is written for a number is a numeral of that number.

  Every layout of some digits with a point is a numeral whose value is that of the
  digits with that point (`exists_plain`, `exists_scientific`).  The digits that are
  written are those of the shortest decimal, without its last zeros, so the numeral
  reads back (`exists_text`).
-/
import MetricFormula.Proofs.Decimal.Numeral
import MetricFormula.Proofs.Decimal.Value

set_option autoImplicit false

namespace MetricFormula.Decimal

open MetricFormula.Binary64 (Magnitude)

/-! ## Digits and their value -/

theorem natural_append_zeros (ds : List Char) (k : Nat) :
    natural (ds ++ List.replicate k '0') = natural ds * 10 ^ k := by
  unfold natural
  rw [Nat.ofDigitChars_append, Nat.ofDigitChars_replicate_zero, Nat.mul_comm]

theorem natural_zeros_append (ds : List Char) (k : Nat) :
    natural (List.replicate k '0' ++ ds) = natural ds := by
  unfold natural
  rw [Nat.ofDigitChars_append, Nat.ofDigitChars_replicate_zero, Nat.mul_zero]

theorem natural_toDigits (n : Nat) : natural (Nat.toDigits 10 n) = n :=
  Nat.ofDigitChars_ten_toDigits

theorem areDigits_toDigits (n : Nat) : AreDigits (Nat.toDigits 10 n) :=
  fun _ hc => Nat.isDigit_of_mem_toDigits (by omega) (by omega) hc

theorem areDigits_zeros (k : Nat) : AreDigits (List.replicate k '0') := by
  intro c hc
  rw [List.eq_of_mem_replicate hc]
  decide

theorem AreDigits.append {ds es : List Char} (hds : AreDigits ds) (hes : AreDigits es) :
    AreDigits (ds ++ es) :=
  fun c hc => (List.mem_append.mp hc).elim (hds c) (hes c)

/-- Only zeros at the end are trimmed. -/
theorem exists_trimZeros (ds : List Char) :
    ∃ k, trimZeros ds ++ List.replicate k '0' = ds := by
  have hzeros : ds.reverse.takeWhile (· == '0') =
      List.replicate (ds.reverse.takeWhile (· == '0')).length '0' := by
    apply List.eq_replicate_of_mem
    intro c hc
    simpa using List.all_eq_true.mp List.all_takeWhile c hc
  refine ⟨(ds.reverse.takeWhile (· == '0')).length, ?_⟩
  unfold trimZeros
  rw [← List.reverse_replicate, ← hzeros, ← List.reverse_append,
    List.takeWhile_append_dropWhile, List.reverse_reverse]

/-! ## Written exponents -/

theorem le_ofDigitChars (ds : List Char) (n : Nat) : n ≤ Nat.ofDigitChars 10 ds n := by
  induction ds generalizing n with
  | nil => exact Nat.le_of_eq Nat.ofDigitChars_nil.symm
  | cons c ds ih =>
      rw [Nat.ofDigitChars_cons]
      exact Nat.le_trans (by omega) (ih _)

/-- Below the bound every digit of an exponent counts. -/
theorem size_eq_natural {x : Exponent} (h : natural x.digits < 65536) :
    x.size = natural x.digits := by
  have hfold : ∀ (ds : List Char) (n : Nat), Nat.ofDigitChars 10 ds n < 65536 →
      ds.foldl (fun n c => if n < 65536 then 10 * n + (c.toNat - '0'.toNat) else n) n =
        Nat.ofDigitChars 10 ds n := by
    intro ds
    induction ds with
    | nil => exact fun _ _ => Nat.ofDigitChars_nil.symm
    | cons c ds ih =>
        intro n hn
        have hle := le_ofDigitChars (c :: ds) n
        rw [Nat.ofDigitChars_cons] at hn ⊢
        rw [List.foldl_cons, if_pos (by rw [Nat.ofDigitChars_cons] at hle; omega)]
        exact ih _ hn
  exact hfold x.digits 0 h

/-- The exponent that is written for an integer. -/
def exponentOf (z : Int) : Exponent where
  letter := 'e'
  sign := if z < 0 then ['-'] else []
  digits := Nat.toDigits 10 z.natAbs

theorem exponentOf_wellFormed (z : Int) : (exponentOf z).WellFormed where
  letter := Or.inl rfl
  sign := by
    unfold exponentOf
    split <;> simp
  digits := areDigits_toDigits _
  nonempty := Nat.toDigits_ne_nil

theorem text_exponentOf (z : Int) : (exponentOf z).text = 'e' :: integer z := by
  unfold exponentOf Exponent.text integer
  split <;> rfl

theorem value_exponentOf {z : Int} (h : z.natAbs < 65536) : (exponentOf z).value = z := by
  have hdigits : natural (exponentOf z).digits = z.natAbs := natural_toDigits _
  have hsize : (exponentOf z).size = z.natAbs := by
    rw [← hdigits] at h ⊢
    exact size_eq_natural h
  unfold Exponent.value
  rw [hsize]
  unfold exponentOf
  dsimp only
  by_cases hz : z < 0
  · rw [if_pos hz, if_pos rfl]
    omega
  · rw [if_neg hz, if_neg (by simp)]
    omega

/-! ## Layouts -/

/-- A numeral that is written as `cs` and has the value of some digits with the point
after the first `point` of them. -/
structure IsLayout (cs ds : List Char) (point : Int) (n : Numeral) : Prop where
  wellFormed : n.WellFormed
  text : n.text = cs
  value : n.value.toBinary64 false = toBinary64 false ⟨natural ds, point - ds.length⟩

theorem exists_plain {ds : List Char} (hds : AreDigits ds) (hne : ds ≠ []) (point : Int) :
    ∃ n, IsLayout (plain ds point) ds point n := by
  unfold plain
  by_cases hneg : point ≤ 0
  · rw [if_pos hneg]
    refine ⟨⟨['0'], some (List.replicate (-point).toNat '0' ++ ds), none⟩, ?_, ?_, ?_⟩
    · refine ⟨areDigits_zeros 1, ?_, Or.inl (by simp), by simp⟩
      intro es hes
      exact Option.some.inj hes ▸ (areDigits_zeros _).append hds
    · simp [Numeral.text]
    · unfold Numeral.value
      dsimp only [Option.getD_some, Option.elim_none]
      rw [← List.append_assoc, show ['0'] ++ List.replicate (-point).toNat '0' =
          List.replicate ((-point).toNat + 1) '0' from rfl, natural_zeros_append,
        List.length_append, List.length_replicate]
      congr 2
      omega
  · rw [if_neg hneg]
    by_cases hlen : (ds.length : Int) ≤ point
    · rw [if_pos hlen]
      refine ⟨⟨ds ++ List.replicate (point.toNat - ds.length) '0', some ['0'], none⟩, ?_, ?_, ?_⟩
      · refine ⟨hds.append (areDigits_zeros _), ?_, Or.inl (by simp [hne]), by simp⟩
        intro es hes
        exact Option.some.inj hes ▸ areDigits_zeros 1
      · simp [Numeral.text]
      · unfold Numeral.value
        dsimp only [Option.getD_some, Option.elim_none]
        rw [List.append_assoc, show List.replicate (point.toNat - ds.length) '0' ++ ['0'] =
            List.replicate (point.toNat - ds.length + 1) '0' from List.replicate_succ'.symm,
          natural_append_zeros, toBinary64_shift]
        congr 2
        simp only [List.length_cons, List.length_nil]
        omega
    · rw [if_neg hlen]
      refine ⟨⟨ds.take point.toNat, some (ds.drop point.toNat), none⟩, ?_, ?_, ?_⟩
      · refine ⟨fun c hc => hds c (List.mem_of_mem_take hc), ?_, Or.inl ?_, by simp⟩
        · intro es hes
          exact Option.some.inj hes ▸ fun c hc => hds c (List.mem_of_mem_drop hc)
        · rw [Ne, List.take_eq_nil_iff, not_or]
          exact ⟨by omega, hne⟩
      · simp [Numeral.text]
      · unfold Numeral.value
        dsimp only [Option.getD_some, Option.elim_none]
        rw [List.take_append_drop, List.length_drop]
        congr 2
        omega

theorem exists_scientific {ds : List Char} (hds : AreDigits ds) (hne : ds ≠ []) {point : Int}
    (hpoint : (point - 1).natAbs < 65536) :
    ∃ n, IsLayout (scientific ds point) ds point n := by
  have hwellFormed : ∀ x, some (exponentOf (point - 1)) = some x → x.WellFormed :=
    fun x hx => Option.some.inj hx ▸ exponentOf_wellFormed _
  cases ds with
  | nil => exact absurd rfl hne
  | cons d es =>
      have hd : AreDigits [d] := fun c hc => List.mem_singleton.mp hc ▸ hds d List.mem_cons_self
      cases es with
      | nil =>
          refine ⟨⟨[d], none, some (exponentOf (point - 1))⟩, ?_, ?_, ?_⟩
          · exact ⟨hd, by simp, Or.inl (by simp), hwellFormed⟩
          · simp [Numeral.text, scientific, text_exponentOf]
          · unfold Numeral.value
            dsimp only [Option.getD_none, Option.elim_some]
            rw [value_exponentOf hpoint, List.append_nil]
            congr 2
            simp only [List.length_cons, List.length_nil]
            omega
      | cons e es =>
          refine ⟨⟨[d], some (e :: es), some (exponentOf (point - 1))⟩, ?_, ?_, ?_⟩
          · refine ⟨hd, ?_, Or.inl (by simp), hwellFormed⟩
            intro fs hfs
            exact Option.some.inj hfs ▸ fun c hc => hds c (List.mem_cons_of_mem d hc)
          · simp [Numeral.text, scientific, text_exponentOf]
          · unfold Numeral.value
            dsimp only [Option.getD_some, Option.elim_some]
            rw [value_exponentOf hpoint]
            congr 2
            simp only [List.length_cons]
            omega

/-! ## The text of a magnitude -/

/-- The digits of a decimal without its last zeros, with the point where the decimal has
it, have the value of the decimal. -/
theorem toBinary64_trimZeros (d : Decimal) :
    toBinary64 false ⟨natural (trimZeros (Nat.toDigits 10 d.coefficient)),
      d.point - (trimZeros (Nat.toDigits 10 d.coefficient)).length⟩ = toBinary64 false d := by
  obtain ⟨k, hk⟩ := exists_trimZeros (Nat.toDigits 10 d.coefficient)
  have hcoefficient : d.coefficient =
      natural (trimZeros (Nat.toDigits 10 d.coefficient)) * 10 ^ k := by
    rw [← natural_append_zeros, hk, natural_toDigits]
  have hlength := congrArg List.length hk
  rw [List.length_append, List.length_replicate] at hlength
  have hpoint : d.point - (trimZeros (Nat.toDigits 10 d.coefficient)).length = d.exponent + k := by
    unfold point
    omega
  rw [hpoint, ← toBinary64_shift, ← hcoefficient]

/-- What is written for a magnitude is a numeral that reads back. -/
theorem exists_text (m : Magnitude) :
    ∃ n : Numeral, n.WellFormed ∧ n.text = text m ∧ n.value.toBinary64 false = .finite false m := by
  by_cases hm : m.units = 0
  · have hzero : m = .zero := by
      cases m
      cases hm
      rfl
    subst hzero
    obtain ⟨n, hn⟩ := exists_plain (areDigits_zeros 1) (by simp) 1
    exact ⟨n, hn.wellFormed, hn.text, hn.value.trans (toBinary64_of_coefficient rfl)⟩
  · have hback := readsBack_shortest m
    have hvalue := (toBinary64_trimZeros (shortest m)).trans hback
    obtain ⟨hlow, hhigh⟩ := point_bounds hback hm
    have hds : AreDigits (trimZeros (Nat.toDigits 10 (shortest m).coefficient)) := by
      obtain ⟨k, hk⟩ := exists_trimZeros (Nat.toDigits 10 (shortest m).coefficient)
      intro c hc
      exact areDigits_toDigits _ c (hk ▸ List.mem_append_left _ hc)
    have hne : trimZeros (Nat.toDigits 10 (shortest m).coefficient) ≠ [] := by
      intro hnil
      rw [hnil, toBinary64_of_coefficient rfl] at hvalue
      injection hvalue with _ hzero
      exact hm (hzero ▸ rfl)
    have hreach : Binary64.reach < 65535 := by
      unfold Binary64.reach Binary64.unitPlaces
      omega
    have hlayout : ∃ n, IsLayout (text m) (trimZeros (Nat.toDigits 10 (shortest m).coefficient))
        (shortest m).point n := by
      unfold text
      rw [if_neg hm]
      dsimp only
      split
      · exact exists_plain hds hne _
      · exact exists_scientific hds hne (by unfold point at hlow hhigh; omega)
    obtain ⟨n, hn⟩ := hlayout
    exact ⟨n, hn.wellFormed, hn.text, hn.value.trans hvalue⟩

end MetricFormula.Decimal
