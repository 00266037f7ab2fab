/-
  NameSet: finite sets of names.

  A set is the list of its names in strictly increasing order by code points, so
  two sets with the same members are the same list.  The main statement is
  `mem_insert`.
-/
set_option autoImplicit false

namespace MetricFormula

/-- A finite set of names, listed in increasing order. -/
structure NameSet where
  toList : List String
  sorted : toList.Pairwise (· < ·)
  deriving DecidableEq

namespace NameSet

/-- The set without members. -/
def empty : NameSet := ⟨[], List.Pairwise.nil⟩

instance : Inhabited NameSet := ⟨empty⟩

instance : Membership String NameSet := ⟨fun s x => x ∈ s.toList⟩

instance (x : String) (s : NameSet) : Decidable (x ∈ s) :=
  inferInstanceAs (Decidable (x ∈ s.toList))

theorem mem_def {x : String} {s : NameSet} : x ∈ s ↔ x ∈ s.toList := Iff.rfl

/-- Whether a name is in the set. -/
def contains (s : NameSet) (x : String) : Bool := decide (x ∈ s)

/-- The names of a set differ from each other. -/
theorem nodup (s : NameSet) : s.toList.Nodup := by
  refine s.sorted.imp ?_
  rintro x _ hlt rfl
  exact String.lt_irrefl x hlt

@[ext] theorem ext {s t : NameSet} (h : ∀ x, x ∈ s ↔ x ∈ t) : s = t := by
  have hperm : s.toList.Perm t.toList := (List.perm_ext_iff_of_nodup s.nodup t.nodup).mpr h
  have hlist : s.toList = t.toList :=
    hperm.eq_of_pairwise (fun _ _ _ _ hxy hyx => absurd hyx (String.lt_asymm hxy))
      s.sorted t.sorted
  cases s
  cases t
  simpa using hlist

/-! ## Insertion -/

/-- Puts a name in its place in an increasing list, unless it is there. -/
def insertSorted (x : String) : List String → List String
  | [] => [x]
  | y :: ys =>
      if x < y then x :: y :: ys
      else if x = y then y :: ys
      else y :: insertSorted x ys

@[simp] theorem mem_insertSorted {x y : String} {ys : List String} :
    y ∈ insertSorted x ys ↔ y = x ∨ y ∈ ys := by
  induction ys with
  | nil => simp [insertSorted]
  | cons z zs ih =>
      simp only [insertSorted]
      split
      · simp
      · split
        · rename_i heq
          subst heq
          simp
        · simp only [List.mem_cons, ih]
          constructor
          · rintro (h | h | h)
            · exact Or.inr (Or.inl h)
            · exact Or.inl h
            · exact Or.inr (Or.inr h)
          · rintro (h | h | h)
            · exact Or.inr (Or.inl h)
            · exact Or.inl h
            · exact Or.inr (Or.inr h)

theorem insertSorted_pairwise {x : String} {ys : List String} (h : ys.Pairwise (· < ·)) :
    (insertSorted x ys).Pairwise (· < ·) := by
  induction ys with
  | nil => simp [insertSorted]
  | cons y ys ih =>
      obtain ⟨hy, hys⟩ := List.pairwise_cons.mp h
      simp only [insertSorted]
      split
      · rename_i hlt
        refine List.pairwise_cons.mpr ⟨?_, h⟩
        intro z hz
        rcases List.mem_cons.mp hz with rfl | hz
        · exact hlt
        · exact String.lt_trans hlt (hy z hz)
      · split
        · exact h
        · rename_i hnlt hne
          refine List.pairwise_cons.mpr ⟨?_, ih hys⟩
          intro z hz
          rcases mem_insertSorted.mp hz with rfl | hz
          · rcases String.le_total z y with hle | hle
            · exact absurd (String.le_antisymm hle (String.not_lt.mp hnlt)) hne
            · refine Classical.byContradiction fun hyz => ?_
              exact hne (String.le_antisymm (String.not_lt.mp hyz) hle)
          · exact hy z hz

/-- The set with one more name. -/
def insert (s : NameSet) (x : String) : NameSet :=
  ⟨insertSorted x s.toList, insertSorted_pairwise s.sorted⟩

@[simp] theorem mem_insert {x y : String} {s : NameSet} : y ∈ s.insert x ↔ y = x ∨ y ∈ s :=
  mem_insertSorted

/-- The set of the names of a list. -/
def ofList (xs : List String) : NameSet := xs.foldl insert empty

/-- The members of either set. -/
def union (s t : NameSet) : NameSet := t.toList.foldl insert s

theorem mem_foldl_insert {x : String} {xs : List String} {s : NameSet} :
    x ∈ xs.foldl insert s ↔ x ∈ s ∨ x ∈ xs := by
  induction xs generalizing s with
  | nil => simp
  | cons y ys ih =>
      rw [List.foldl_cons, ih, mem_insert, List.mem_cons]
      constructor
      · rintro ((h | h) | h)
        · exact Or.inr (Or.inl h)
        · exact Or.inl h
        · exact Or.inr (Or.inr h)
      · rintro (h | h | h)
        · exact Or.inl (Or.inr h)
        · exact Or.inl (Or.inl h)
        · exact Or.inr h

@[simp] theorem mem_ofList {x : String} {xs : List String} : x ∈ ofList xs ↔ x ∈ xs := by
  unfold ofList
  rw [mem_foldl_insert]
  simp [mem_def, empty]

/-- A set is the set of the names that it lists. -/
theorem ofList_toList (s : NameSet) : ofList s.toList = s := ext fun _ => mem_ofList

@[simp] theorem mem_union {x : String} {s t : NameSet} : x ∈ s.union t ↔ x ∈ s ∨ x ∈ t :=
  mem_foldl_insert

@[simp] theorem not_mem_empty {x : String} : x ∉ empty := by simp [mem_def, empty]

@[simp] theorem empty_union (s : NameSet) : empty.union s = s := by
  ext x
  simp

theorem union_assoc (s t u : NameSet) : (s.union t).union u = s.union (t.union u) := by
  ext x
  simp [or_assoc]

theorem insert_eq_union (s : NameSet) (x : String) : s.insert x = s.union (ofList [x]) := by
  ext y
  simp [or_comm]

end NameSet

end MetricFormula
