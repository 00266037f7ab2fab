/-
  Proofs/Wire/Basic: readers take what writers put.

  `Decodes p bytes a` says that a reader takes a value off its encoding whatever bytes come
  after, and leaves these.  Readers in a row decode encodings in a row (`Decodes.andThen`), so
  each reader decodes what its writer puts as soon as the readers that it is made of do.

  The encoding of one value is then not the beginning of that of another one
  (`Decodes.eq_of_isPrefix`).
-/
import MetricFormula.Wire.Basic
import MetricFormula.Proofs.Binary64.Bits

set_option autoImplicit false

namespace MetricFormula.Wire

/-- The reader takes the value off the bytes, and leaves what comes after them. -/
def Decodes {α : Type} (p : Step α) (bytes : Bytes) (a : α) : Prop :=
  ∀ rest, p (bytes ++ rest) = .ok (a, rest)

namespace Decodes

variable {α β : Type} {p : Step α} {k : α → Step β} {bytes bytes' : Bytes} {a a' : α} {b : β}

theorem done (a : α) : Decodes (Step.done a) [] a := fun _ => rfl

theorem andThen (h : Decodes p bytes a) (hk : Decodes (k a) bytes' b) :
    Decodes (Step.andThen p k) (bytes ++ bytes') b := by
  intro rest
  rw [List.append_assoc, Step.andThen_ok (h (bytes' ++ rest)), hk rest]

/-- A reader that makes something of what another one takes. -/
theorem map (h : Decodes p bytes a) (f : α → β) :
    Decodes (Step.andThen p fun a => Step.done (f a)) bytes (f a) := by
  have hdone := h.andThen (k := fun a => Step.done (f a)) (done (f a))
  rwa [List.append_nil] at hdone

/-- No encoding is the beginning of another one. -/
theorem eq_of_isPrefix (h : Decodes p bytes a) (h' : Decodes p bytes' a') (hp : bytes <+: bytes') :
    a = a' := by
  obtain ⟨more, rfl⟩ := hp
  have hwhole := h' []
  rw [List.append_nil, h more] at hwhole
  exact (Prod.ext_iff.mp (Except.ok.inj hwhole)).1

end Decodes

/-! ## Whole numbers -/

/-- Groups hold the numbers below a bound, which the last group has a share in. -/
theorem decodes_groups {last : Nat} (hlast : last < 128) (more : Nat) {n : Nat}
    (h : n < 128 ^ more * (last + 1)) : Decodes (takeGroups last more) (putGroups more n) n := by
  induction more generalizing n with
  | zero =>
      intro rest
      have hbyte : (UInt8.ofNat n).toNat = n := by
        rw [UInt8.toNat_ofNat']
        omega
      simp only [putGroups, List.singleton_append, takeGroups, hbyte]
      rw [if_pos (by omega)]
  | succ more ih =>
      intro rest
      by_cases hsmall : n < 128
      · have hbyte : (UInt8.ofNat n).toNat = n := by
          rw [UInt8.toNat_ofNat']
          omega
        simp only [putGroups, if_pos hsmall, List.singleton_append, takeGroups, hbyte]
      · have hbyte : (UInt8.ofNat (n % 128 + 128)).toNat = n % 128 + 128 := by
          rw [UInt8.toNat_ofNat']
          omega
        have hhigh : n / 128 < 128 ^ more * (last + 1) := by
          rw [Nat.pow_succ, Nat.mul_right_comm] at h
          exact (Nat.div_lt_iff_lt_mul (by decide)).mpr h
        simp only [putGroups, if_neg hsmall, List.cons_append, takeGroups, hbyte, ih hhigh rest]
        rw [if_neg (by omega)]
        congr 2
        omega

/-- The whole numbers of 64 bits, which lengths are among. -/
def IsWord (n : Nat) : Prop := n < 2 ^ 64

instance (n : Nat) : Decidable (IsWord n) := inferInstanceAs (Decidable (n < 2 ^ 64))

theorem decodes_nat {n : Nat} (h : IsWord n) : Decodes takeNat (putNat n) n :=
  decodes_groups (by decide) 9 (by unfold IsWord at h; omega)

theorem decodes_variant {n : Nat} (h : n < 2 ^ 32) : Decodes takeVariant (putVariant n) n :=
  decodes_groups (by decide) 4 (by omega)

/-- A whole number takes at least one byte. -/
theorem length_putGroups_pos (more n : Nat) : 0 < (putGroups more n).length := by
  cases more with
  | zero => exact Nat.one_pos
  | succ more =>
      rw [putGroups]
      split
      · exact Nat.one_pos
      · exact Nat.succ_pos _

/-! ## Lists and texts -/

section List

variable {α : Type} {p : Step α} {put : α → Bytes} {as : List α}

theorem decodes_count (h : ∀ a ∈ as, Decodes p (put a) a) :
    Decodes (takeCount p as.length) (as.flatMap put) as := by
  induction as with
  | nil => exact .done []
  | cons a as ih =>
      have hrest := ih fun b hb => h b (List.mem_cons_of_mem a hb)
      exact (h a List.mem_cons_self).andThen (hrest.map (a :: ·))

/-- A list is decoded if its elements are, and their number can be. -/
theorem decodes_list (hlength : IsWord as.length) (h : ∀ a ∈ as, Decodes p (put a) a) :
    Decodes (takeList p) (putList put as) as :=
  (decodes_nat hlength).andThen (decodes_count h)

end List

theorem decodes_bytes (bytes : Bytes) : Decodes (takeBytes bytes.length) bytes bytes := by
  induction bytes with
  | nil => exact fun _ => rfl
  | cons b bytes ih =>
      intro rest
      simp only [List.length_cons, List.cons_append, takeBytes, ih rest]

/-- A text can be read off its bytes. -/
theorem textOfBytes_textBytes (s : String) : textOfBytes (textBytes s) = .ok s := by
  have hbytes : (⟨(textBytes s).toArray⟩ : ByteArray) = s.toByteArray := rfl
  rw [textOfBytes, hbytes, String.fromUTF8?, dif_pos s.isValidUTF8]
  rfl

theorem decodes_text {s : String} (h : IsWord (textBytes s).length) :
    Decodes takeText (putText s) s := by
  refine (decodes_nat h).andThen fun rest => ?_
  rw [Step.andThen_ok (decodes_bytes (textBytes s) rest), textOfBytes_textBytes]

/-! ## Binary64 numbers -/

theorem length_putFixed (count n : Nat) : (putFixed count n).length = count := by
  induction count generalizing n with
  | zero => rfl
  | succ count ih => rw [putFixed, List.length_cons, ih]

/-- The lowest bytes of a number make up what is below their weight. -/
theorem fixedValue_putFixed (count n : Nat) : fixedValue (putFixed count n) = n % 256 ^ count := by
  induction count generalizing n with
  | zero => rw [putFixed, fixedValue, Nat.pow_zero, Nat.mod_one]
  | succ count ih =>
      have hbyte : (UInt8.ofNat (n % 256)).toNat = n % 256 := by simp
      rw [putFixed, fixedValue, ih, hbyte, Nat.pow_succ, Nat.mul_comm (256 ^ count), Nat.mod_mul]

theorem decodes_number (x : Binary64) : Decodes takeNumber (putNumber x) x := by
  have hvalue : fixedValue (putNumber x) = x.toBits.toNat := by
    rw [putNumber, fixedValue_putFixed]
    exact Nat.mod_eq_of_lt x.toBits.toNat_lt
  have hbytes := decodes_bytes (putNumber x)
  rw [putNumber, length_putFixed, ← putNumber] at hbytes
  have hnumber := hbytes.map fun bs => Binary64.ofBits (UInt64.ofNat (fixedValue bs))
  rwa [hvalue, UInt64.ofNat_toNat, Binary64.ofBits_toBits] at hnumber

end MetricFormula.Wire
