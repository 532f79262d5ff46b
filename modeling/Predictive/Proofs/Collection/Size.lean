import Predictive.Collection.OrderedSet
import Mathlib.Data.List.Perm.Subperm

set_option autoImplicit false

namespace Predictive

theorem length_le_one_iff_of_nodup {α : Type} {l : List α} (distinct : l.Nodup) :
    l.length ≤ 1 ↔ ∀ x ∈ l, ∀ y ∈ l, x = y := by
  match l with
  | [] => simp
  | [x] => simp
  | x :: y :: rest =>
      constructor
      · intro small
        simp at small
      · intro same
        have equal : x = y := same x (by simp) y (by simp)
        subst equal
        simp at distinct

namespace OrderedSet

variable {α : Type} [Ord α] [Std.LawfulEqOrd α] [Std.TransOrd α] {s t : OrderedSet α}

omit [Std.TransOrd α] in
theorem nodup_toList (s : OrderedSet α) : s.toList.Nodup := nodup_of_pairwise s.ordered

omit [Std.TransOrd α] in
theorem size_le_length {l : List α} (inside : ∀ x ∈ s, x ∈ l) : s.size ≤ l.length :=
  (List.subperm_of_subset s.nodup_toList inside).length_le

omit [Std.TransOrd α] in
theorem size_le_size (inside : ∀ x ∈ s, x ∈ t) : s.size ≤ t.size := size_le_length inside

theorem size_lt_size (inside : ∀ x ∈ s, x ∈ t) (other : s ≠ t) : s.size < t.size := by
  refine Nat.lt_of_le_of_ne (size_le_size inside) fun same => other ?_
  have permuted := (List.subperm_of_subset s.nodup_toList inside).perm_of_length_le
    (Nat.le_of_eq same.symm)
  ext x
  rw [← mem_toList, permuted.mem_iff, mem_toList]

section Family

variable {κ : Type} {keys : List κ} {f f' : κ → OrderedSet α}

/-- The sizes of a family of sets taken together. -/
def totalSize (keys : List κ) (f : κ → OrderedSet α) : Nat :=
  keys.foldr (fun k total => (f k).size + total) 0

omit [Std.LawfulEqOrd α] [Std.TransOrd α] in
theorem totalSize_cons (k : κ) (keys : List κ) (f : κ → OrderedSet α) :
    totalSize (k :: keys) f = (f k).size + totalSize keys f := rfl

omit [Std.TransOrd α] in
theorem totalSize_le {l : List α} (inside : ∀ k ∈ keys, ∀ x ∈ f k, x ∈ l) :
    totalSize keys f ≤ keys.length * l.length := by
  induction keys with
  | nil => simp [totalSize]
  | cons k keys ih =>
      obtain ⟨first, rest⟩ := List.forall_mem_cons.1 inside
      have here := size_le_length first
      have there := ih rest
      rw [totalSize_cons, List.length_cons, Nat.add_mul]
      omega

omit [Std.TransOrd α] in
theorem totalSize_mono (grows : ∀ k ∈ keys, ∀ x ∈ f k, x ∈ f' k) :
    totalSize keys f ≤ totalSize keys f' := by
  induction keys with
  | nil => exact Nat.le_refl _
  | cons k keys ih =>
      obtain ⟨first, rest⟩ := List.forall_mem_cons.1 grows
      rw [totalSize_cons, totalSize_cons]
      exact Nat.add_le_add (size_le_size first) (ih rest)

theorem totalSize_lt (grows : ∀ k ∈ keys, ∀ x ∈ f k, x ∈ f' k)
    (changed : ∃ k ∈ keys, f k ≠ f' k) : totalSize keys f < totalSize keys f' := by
  induction keys with
  | nil => simp at changed
  | cons k keys ih =>
      obtain ⟨first, rest⟩ := List.forall_mem_cons.1 grows
      rw [totalSize_cons, totalSize_cons]
      obtain ⟨j, among, other⟩ := changed
      rcases List.mem_cons.1 among with rfl | among
      · exact Nat.add_lt_add_of_lt_of_le (size_lt_size first other) (totalSize_mono rest)
      · exact Nat.add_lt_add_of_le_of_lt (size_le_size first) (ih rest ⟨j, among, other⟩)

theorem totalSize_lt_of_ne (grows : ∀ k, ∀ x ∈ f k, x ∈ f' k) (outside : ∀ k, k ∉ keys → f' k = ∅)
    (other : f' ≠ f) : totalSize keys f < totalSize keys f' := by
  refine totalSize_lt (fun k _ => grows k) ?_
  by_contra same
  refine other (funext fun k => ?_)
  by_cases among : k ∈ keys
  · by_contra differs
    exact same ⟨k, among, fun equal => differs equal.symm⟩
  · ext x
    constructor
    · intro inside
      rw [outside k among] at inside
      exact absurd inside (not_mem_empty x)
    · exact grows k x

end Family

end OrderedSet

end Predictive
