set_option autoImplicit false

namespace Predictive

/-- A finite set, listed in increasing order without repetition. -/
structure OrderedSet (α : Type) [Ord α] where
  toList : List α
  ordered : toList.Pairwise fun x y => compare x y = .lt
deriving DecidableEq

namespace OrderedSet

variable {α : Type} [Ord α]

instance : Membership α (OrderedSet α) := ⟨fun s x => x ∈ s.toList⟩

instance [DecidableEq α] (x : α) (s : OrderedSet α) : Decidable (x ∈ s) :=
  inferInstanceAs (Decidable (x ∈ s.toList))

theorem mem_toList {x : α} {s : OrderedSet α} : x ∈ s.toList ↔ x ∈ s := Iff.rfl

instance : EmptyCollection (OrderedSet α) := ⟨⟨[], .nil⟩⟩

instance : Inhabited (OrderedSet α) := ⟨∅⟩

@[simp] theorem not_mem_empty (x : α) : ¬ x ∈ (∅ : OrderedSet α) := List.not_mem_nil

def isEmpty (s : OrderedSet α) : Bool := s.toList.isEmpty

def size (s : OrderedSet α) : Nat := s.toList.length

/-- The members that satisfy `keep`. -/
def filter (s : OrderedSet α) (keep : α → Bool) : OrderedSet α :=
  ⟨s.toList.filter keep, s.ordered.sublist List.filter_sublist⟩

@[simp] theorem mem_filter {s : OrderedSet α} {keep : α → Bool} {x : α} :
    x ∈ s.filter keep ↔ x ∈ s ∧ keep x = true := List.mem_filter

/-- The set without `x`. -/
def erase [DecidableEq α] (s : OrderedSet α) (x : α) : OrderedSet α :=
  s.filter fun y => !decide (y = x)

@[simp] theorem mem_erase [DecidableEq α] {s : OrderedSet α} {x y : α} :
    y ∈ s.erase x ↔ y ∈ s ∧ y ≠ x := by
  simp [erase]

/-- Puts `x` at its place in an increasing list, unless it is there. -/
def insertSorted (x : α) : List α → List α
  | [] => [x]
  | y :: ys =>
    match compare x y with
    | .lt => x :: y :: ys
    | .eq => y :: ys
    | .gt => y :: insertSorted x ys

variable [Std.LawfulEqOrd α]

theorem mem_insertSorted {x y : α} {l : List α} :
    y ∈ insertSorted x l ↔ y = x ∨ y ∈ l := by
  induction l with
  | nil => simp [insertSorted]
  | cons z zs ih =>
      simp only [insertSorted]
      split
      case h_1 => simp
      case h_2 same =>
        have : x = z := Std.LawfulEqOrd.eq_of_compare same
        simp [this]
      case h_3 =>
        simp only [List.mem_cons, ih]
        grind

variable [Std.TransOrd α]

theorem pairwise_insertSorted {x : α} {l : List α}
    (ordered : l.Pairwise fun x y => compare x y = .lt) :
    (insertSorted x l).Pairwise fun x y => compare x y = .lt := by
  induction l with
  | nil => simp [insertSorted]
  | cons z zs ih =>
      obtain ⟨first, rest⟩ := List.pairwise_cons.1 ordered
      simp only [insertSorted]
      split
      case h_1 below =>
        refine List.pairwise_cons.2 ⟨fun y inside => ?_, ordered⟩
        rcases List.mem_cons.1 inside with rfl | inside
        · exact below
        · exact Std.TransCmp.lt_trans below (first y inside)
      case h_2 => exact ordered
      case h_3 above =>
        refine List.pairwise_cons.2 ⟨fun y inside => ?_, ih rest⟩
        rcases mem_insertSorted.1 inside with rfl | inside
        · exact Std.OrientedCmp.gt_iff_lt.1 above
        · exact first y inside

/-- The set with `x` added. -/
def insert (s : OrderedSet α) (x : α) : OrderedSet α :=
  ⟨insertSorted x s.toList, pairwise_insertSorted s.ordered⟩

@[simp] theorem mem_insert {s : OrderedSet α} {x y : α} :
    y ∈ s.insert x ↔ y = x ∨ y ∈ s := mem_insertSorted

/-- The set with every element of a list added. -/
def insertMany (s : OrderedSet α) (l : List α) : OrderedSet α :=
  l.foldl insert s

@[simp] theorem mem_insertMany {s : OrderedSet α} {l : List α} {y : α} :
    y ∈ s.insertMany l ↔ y ∈ s ∨ y ∈ l := by
  induction l generalizing s with
  | nil => simp [insertMany]
  | cons x xs ih =>
      have step : s.insertMany (x :: xs) = (s.insert x).insertMany xs := rfl
      simp only [step, ih, mem_insert, List.mem_cons]
      grind

/-- The elements of a list as a set. -/
def ofList (l : List α) : OrderedSet α := insertMany ∅ l

@[simp] theorem mem_ofList {l : List α} {y : α} : y ∈ ofList l ↔ y ∈ l := by
  simp [ofList]

instance : Union (OrderedSet α) := ⟨fun s t => s.insertMany t.toList⟩

@[simp] theorem mem_union {s t : OrderedSet α} {y : α} : y ∈ s ∪ t ↔ y ∈ s ∨ y ∈ t :=
  mem_insertMany

theorem mem_foldl_union {β : Type} {part : β → OrderedSet α} {l : List β} {s : OrderedSet α}
    {y : α} : y ∈ l.foldl (fun all x => all ∪ part x) s ↔ y ∈ s ∨ ∃ x ∈ l, y ∈ part x := by
  induction l generalizing s with
  | nil => simp
  | cons x xs ih =>
      simp only [List.foldl_cons, ih, mem_union, List.mem_cons, exists_eq_or_imp, or_assoc]

instance : Singleton α (OrderedSet α) := ⟨fun x => insert ∅ x⟩

@[simp] theorem mem_singleton {x y : α} : y ∈ ({x} : OrderedSet α) ↔ y = x := by
  show y ∈ insert ∅ x ↔ _
  simp

omit [Std.TransOrd α] in
theorem nodup_of_pairwise {l : List α} (ordered : l.Pairwise fun x y => compare x y = .lt) :
    l.Nodup :=
  ordered.imp fun {x y} below equal => by
    subst equal
    rw [Std.compare_self] at below
    contradiction

theorem eq_of_pairwise_of_mem_iff {l m : List α}
    (left : l.Pairwise fun x y => compare x y = .lt)
    (right : m.Pairwise fun x y => compare x y = .lt)
    (same : ∀ x, x ∈ l ↔ x ∈ m) : l = m := by
  have permuted :=
    (List.perm_ext_iff_of_nodup (nodup_of_pairwise left) (nodup_of_pairwise right)).2 same
  refine permuted.eq_of_pairwise (fun x y _ _ below above => ?_) left right
  exact (Std.OrientedCmp.not_lt_of_lt below above).elim

@[ext] theorem ext {s t : OrderedSet α} (same : ∀ x, x ∈ s ↔ x ∈ t) : s = t := by
  obtain ⟨l, left⟩ := s
  obtain ⟨m, right⟩ := t
  have : l = m := eq_of_pairwise_of_mem_iff left right same
  subst this
  rfl

end OrderedSet

end Predictive
