import Mathlib.Algebra.Ring.Nat
import Mathlib.Data.List.Perm.Subperm

/-- Each element of `xs` is one of `ys`, and none of them is used twice. When order matters they also
stand in the order that they have in `ys`. -/
def Selected {α : Type} (ordered : Bool) (xs ys : List α) : Prop :=
  if ordered then xs.Sublist ys else xs.Subperm ys

/-- `xs` has the elements of `ys`, each of them as often. When order matters it is the same list. -/
def Arranged {α : Type} (ordered : Bool) (xs ys : List α) : Prop :=
  if ordered then xs = ys else xs.Perm ys

namespace Arranged

variable {α β : Type} {ordered : Bool} {xs ys zs : List α}

theorem refl (xs : List α) : Arranged ordered xs xs := by
  cases ordered with
  | true => exact rfl
  | false => exact List.Perm.refl xs

theorem of_perm (unordered : ordered = false) (perm : xs.Perm ys) : Arranged ordered xs ys := by
  subst unordered
  exact perm

theorem perm (arranged : Arranged ordered xs ys) : xs.Perm ys := by
  cases ordered with
  | true => exact List.Perm.of_eq arranged
  | false => exact arranged

theorem trans (left : Arranged ordered xs ys) (right : Arranged ordered ys zs) : Arranged ordered xs zs := by
  cases ordered with
  | true => exact Eq.trans left right
  | false => exact List.Perm.trans left right

theorem append_right (arranged : Arranged ordered xs ys) (zs : List α) :
    Arranged ordered (xs ++ zs) (ys ++ zs) := by
  cases ordered with
  | true => exact congrArg (· ++ zs) arranged
  | false => exact List.Perm.append_right zs arranged

theorem append_left (zs : List α) (arranged : Arranged ordered xs ys) :
    Arranged ordered (zs ++ xs) (zs ++ ys) := by
  cases ordered with
  | true => exact congrArg (zs ++ ·) arranged
  | false => exact List.Perm.append_left zs arranged

theorem map (arranged : Arranged ordered xs ys) (f : α → β) : Arranged ordered (xs.map f) (ys.map f) := by
  cases ordered with
  | true => exact congrArg (List.map f) arranged
  | false => exact List.Perm.map f arranged

end Arranged

namespace Selected

variable {α β : Type} {ordered : Bool} {xs ys zs : List α}

theorem of_sublist (sublist : xs.Sublist ys) : Selected ordered xs ys := by
  cases ordered with
  | true => exact sublist
  | false => exact sublist.subperm

theorem refl (xs : List α) : Selected ordered xs xs := of_sublist (.refl xs)

theorem of_perm (unordered : ordered = false) (perm : xs.Perm ys) : Selected ordered xs ys := by
  subst unordered
  exact perm.subperm

theorem subperm (selected : Selected ordered xs ys) : xs.Subperm ys := by
  cases ordered with
  | true => exact List.Sublist.subperm selected
  | false => exact selected

theorem sublist (selected : Selected true xs ys) : xs.Sublist ys := selected

theorem subset (selected : Selected ordered xs ys) : xs ⊆ ys := selected.subperm.subset

theorem trans (left : Selected ordered xs ys) (right : Selected ordered ys zs) : Selected ordered xs zs := by
  cases ordered with
  | true => exact List.Sublist.trans left right
  | false => exact List.Subperm.trans left right

theorem of_arranged (arranged : Arranged ordered xs ys) : Selected ordered xs ys := by
  cases ordered with
  | true => exact arranged ▸ List.Sublist.refl xs
  | false => exact List.Perm.subperm arranged

/-- Nothing is left out when there are as many elements. -/
theorem arranged (selected : Selected ordered xs ys) (all : ys.length ≤ xs.length) : Arranged ordered xs ys := by
  cases ordered with
  | true => exact List.Sublist.eq_of_length_le selected all
  | false => exact List.Subperm.perm_of_length_le selected all

/-- Nothing is left out when the elements weigh as much, and none weighs nothing. -/
theorem arranged_of_weight (selected : Selected ordered xs ys) (weight : α → Nat) (positive : ∀ y ∈ ys, 0 < weight y)
    (all : (ys.map weight).sum ≤ (xs.map weight).sum) : Arranged ordered xs ys := by
  refine selected.arranged ?_
  obtain ⟨order, perm, sublist⟩ := selected.subperm
  obtain ⟨others, split⟩ := sublist.exists_perm_append
  have same := (perm.map weight).sum_nat
  have sums := (split.map weight).sum_nat
  rw [List.map_append, List.sum_append] at sums
  cases others with
  | nil =>
    rw [List.append_nil] at split
    exact Nat.le_of_eq (split.length_eq.trans perm.length_eq)
  | cons other later =>
    have some := positive other (split.symm.subset (by simp))
    rw [List.map_cons, List.sum_cons] at sums
    omega

theorem append_right (selected : Selected ordered xs ys) (zs : List α) :
    Selected ordered (xs ++ zs) (ys ++ zs) := by
  cases ordered with
  | true => exact List.Sublist.append_right selected zs
  | false => exact (List.subperm_append_right zs).mpr selected

theorem map (selected : Selected ordered xs ys) (f : α → β) : Selected ordered (xs.map f) (ys.map f) := by
  cases ordered with
  | true => exact List.Sublist.map f selected
  | false =>
    obtain ⟨order, perm, sublist⟩ := selected
    exact ⟨order.map f, perm.map f, sublist.map f⟩

end Selected
