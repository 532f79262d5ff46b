import Predictive.Collection.OrderedSet

set_option autoImplicit false

namespace Predictive

/-- A finite map, listed in increasing order of its keys. -/
structure OrderedMap (κ β : Type) [Ord κ] where
  toList : List (κ × β)
  ordered : toList.Pairwise fun x y => compare x.1 y.1 = .lt
deriving DecidableEq

namespace OrderedMap

variable {κ β : Type} [Ord κ]

instance : EmptyCollection (OrderedMap κ β) := ⟨⟨[], .nil⟩⟩

instance : Inhabited (OrderedMap κ β) := ⟨∅⟩

/-- The keys in increasing order. -/
def keys (m : OrderedMap κ β) : List κ := m.toList.map Prod.fst

/-- The values in the order of their keys. -/
def values (m : OrderedMap κ β) : List β := m.toList.map Prod.snd

def size (m : OrderedMap κ β) : Nat := m.toList.length

instance : Membership κ (OrderedMap κ β) := ⟨fun m k => k ∈ m.keys⟩

instance [DecidableEq κ] (k : κ) (m : OrderedMap κ β) : Decidable (k ∈ m) :=
  inferInstanceAs (Decidable (k ∈ m.keys))

theorem increasing_keys (m : OrderedMap κ β) : m.keys.Pairwise fun j k => compare j k = .lt :=
  m.ordered.map Prod.fst fun _ _ below => below

/-- Applies `f` to every value, which it may change with regard to the key. -/
def mapValues {γ : Type} (m : OrderedMap κ β) (f : κ → β → γ) : OrderedMap κ γ :=
  ⟨m.toList.map fun e => (e.1, f e.1 e.2), m.ordered.map _ fun _ _ below => below⟩

@[simp] theorem keys_mapValues {γ : Type} (m : OrderedMap κ β) (f : κ → β → γ) :
    (m.mapValues f).keys = m.keys := by
  simp [keys, mapValues, Function.comp_def]

/-- The map that gives each member of a set its value under `f`. -/
def tabulate (s : OrderedSet κ) (f : κ → β) : OrderedMap κ β :=
  ⟨s.toList.map fun k => (k, f k), s.ordered.map _ fun _ _ below => below⟩

@[simp] theorem keys_tabulate (s : OrderedSet κ) (f : κ → β) : (tabulate s f).keys = s.toList := by
  simp [keys, tabulate, Function.comp_def]

section Lookup

variable [DecidableEq κ]

/-- The value beside the first occurrence of a key. -/
def lookup (k : κ) : List (κ × β) → Option β
  | [] => none
  | e :: rest => if e.1 = k then some e.2 else lookup k rest

def get? (m : OrderedMap κ β) (k : κ) : Option β := lookup k m.toList

/-- Applies `f` to the value of `k`, if it has one. -/
def modify (m : OrderedMap κ β) (k : κ) (f : β → β) : OrderedMap κ β :=
  m.mapValues fun j b => if j = k then f b else b

@[simp] theorem keys_modify (m : OrderedMap κ β) (k : κ) (f : β → β) :
    (m.modify k f).keys = m.keys := keys_mapValues m _

omit [Ord κ] in
theorem lookup_map {γ : Type} (k : κ) (f : κ → β → γ) (l : List (κ × β)) :
    lookup k (l.map fun e => (e.1, f e.1 e.2)) = (lookup k l).map (f k) := by
  induction l with
  | nil => rfl
  | cons e rest ih =>
      simp only [List.map_cons, lookup, ih]
      split
      case isTrue same => simp [same]
      case isFalse => rfl

@[simp] theorem get?_mapValues {γ : Type} (m : OrderedMap κ β) (f : κ → β → γ) (k : κ) :
    (m.mapValues f).get? k = (m.get? k).map (f k) := lookup_map k f m.toList

theorem get?_tabulate (s : OrderedSet κ) (f : κ → β) (k : κ) :
    (tabulate s f).get? k = if k ∈ s then some (f k) else none := by
  have entries (l : List κ) :
      lookup k (l.map fun j => (j, f j)) = if k ∈ l then some (f k) else none := by
    induction l with
    | nil => rfl
    | cons j rest ih => grind [lookup]
  exact entries s.toList

theorem get?_modify (m : OrderedMap κ β) (k j : κ) (f : β → β) :
    (m.modify k f).get? j = if j = k then (m.get? j).map f else m.get? j := by
  simp only [modify, get?_mapValues]
  split <;> simp

omit [Ord κ] in
theorem lookup_eq_none_iff {k : κ} {l : List (κ × β)} :
    lookup k l = none ↔ k ∉ l.map Prod.fst := by
  induction l with
  | nil => simp [lookup]
  | cons e rest ih =>
      simp only [lookup, List.map_cons, List.mem_cons]
      split <;> grind

theorem get?_eq_none_iff {m : OrderedMap κ β} {k : κ} : m.get? k = none ↔ ¬ k ∈ m :=
  lookup_eq_none_iff

theorem mem_of_get?_eq_some {m : OrderedMap κ β} {k : κ} {b : β} (found : m.get? k = some b) :
    k ∈ m :=
  Decidable.byContradiction fun absent => by
    rw [get?_eq_none_iff.2 absent] at found
    contradiction

omit [Ord κ] in
theorem mem_of_lookup_eq_some {k : κ} {b : β} {l : List (κ × β)}
    (found : lookup k l = some b) : (k, b) ∈ l := by
  induction l with
  | nil => simp [lookup] at found
  | cons e rest ih =>
      simp only [lookup] at found
      split at found
      case isTrue same =>
        obtain rfl := Option.some.inj found
        subst same
        exact List.mem_cons_self
      case isFalse => exact List.mem_cons_of_mem e (ih found)

variable [Std.LawfulEqOrd κ]

theorem lookup_eq_some_of_mem {k : κ} {b : β} {l : List (κ × β)}
    (ordered : l.Pairwise fun x y => compare x.1 y.1 = .lt) (inside : (k, b) ∈ l) :
    lookup k l = some b := by
  induction l with
  | nil => simp at inside
  | cons e rest ih =>
      obtain ⟨first, others⟩ := List.pairwise_cons.1 ordered
      rcases List.mem_cons.1 inside with rfl | inside
      · simp [lookup]
      · have below := first _ inside
        have apart : e.1 ≠ k := by
          intro same
          rw [same, Std.compare_self] at below
          contradiction
        simp [lookup, apart, ih others inside]

theorem get?_eq_some_iff {m : OrderedMap κ β} {k : κ} {b : β} :
    m.get? k = some b ↔ (k, b) ∈ m.toList :=
  ⟨mem_of_lookup_eq_some, lookup_eq_some_of_mem m.ordered⟩

theorem map_values {γ : Type} {m : OrderedMap κ β} {f : β → γ} {h : κ → γ}
    (same : ∀ k b, m.get? k = some b → f b = h k) : m.values.map f = m.keys.map h := by
  rw [values, keys, List.map_map, List.map_map]
  exact List.map_congr_left fun e inside => same e.1 e.2 (get?_eq_some_iff.2 inside)

theorem mem_values {m : OrderedMap κ β} {b : β} : b ∈ m.values ↔ ∃ k, m.get? k = some b := by
  simp only [values, List.mem_map, get?_eq_some_iff, Prod.exists, exists_eq_right]

end Lookup

/-- Puts an entry at the place of its key in an increasing list, over an entry of that key. -/
def insertSorted (k : κ) (b : β) : List (κ × β) → List (κ × β)
  | [] => [(k, b)]
  | e :: rest =>
    match compare k e.1 with
    | .lt => (k, b) :: e :: rest
    | .eq => (k, b) :: rest
    | .gt => e :: insertSorted k b rest

variable [Std.LawfulEqOrd κ]

theorem mem_keys_insertSorted {k j : κ} {b : β} {l : List (κ × β)} :
    j ∈ (insertSorted k b l).map Prod.fst ↔ j = k ∨ j ∈ l.map Prod.fst := by
  induction l with
  | nil => simp [insertSorted]
  | cons e rest ih =>
      simp only [insertSorted]
      split
      case h_1 => simp
      case h_2 same =>
        have : k = e.1 := Std.LawfulEqOrd.eq_of_compare same
        simp [this]
      case h_3 =>
        simp only [List.map_cons, List.mem_cons, ih]
        grind

variable [Std.TransOrd κ]

theorem pairwise_insertSorted {k : κ} {b : β} {l : List (κ × β)}
    (ordered : l.Pairwise fun x y => compare x.1 y.1 = .lt) :
    (insertSorted k b l).Pairwise fun x y => compare x.1 y.1 = .lt := by
  induction l with
  | nil => simp [insertSorted]
  | cons e rest ih =>
      obtain ⟨first, others⟩ := List.pairwise_cons.1 ordered
      simp only [insertSorted]
      split
      case h_1 below =>
        refine List.pairwise_cons.2 ⟨fun y inside => ?_, ordered⟩
        rcases List.mem_cons.1 inside with rfl | inside
        · exact below
        · exact Std.TransCmp.lt_trans below (first y inside)
      case h_2 same =>
        have : k = e.1 := Std.LawfulEqOrd.eq_of_compare same
        subst this
        exact List.pairwise_cons.2 ⟨first, others⟩
      case h_3 above =>
        refine List.pairwise_cons.2 ⟨fun y inside => ?_, ih others⟩
        have key := List.mem_map_of_mem (f := Prod.fst) inside
        rcases mem_keys_insertSorted.1 key with same | inside
        · rw [same]
          exact Std.OrientedCmp.gt_iff_lt.1 above
        · obtain ⟨z, inside, same⟩ := List.mem_map.1 inside
          rw [← same]
          exact first z inside

/-- The map with `b` at `k`, in place of what it held there. -/
def insert (m : OrderedMap κ β) (k : κ) (b : β) : OrderedMap κ β :=
  ⟨insertSorted k b m.toList, pairwise_insertSorted m.ordered⟩

theorem mem_insert {m : OrderedMap κ β} {k j : κ} {b : β} : j ∈ m.insert k b ↔ j = k ∨ j ∈ m :=
  mem_keys_insertSorted

theorem keys_eq_of_mem_iff {γ : Type} {m : OrderedMap κ β} {n : OrderedMap κ γ}
    (same : ∀ k, k ∈ m ↔ k ∈ n) : m.keys = n.keys :=
  OrderedSet.eq_of_pairwise_of_mem_iff m.increasing_keys n.increasing_keys same

variable [DecidableEq κ]

omit [Std.TransOrd κ] in
theorem lookup_insertSorted (k j : κ) (b : β) (l : List (κ × β)) :
    lookup j (insertSorted k b l) = if j = k then some b else lookup j l := by
  induction l with
  | nil => simp [insertSorted, lookup, eq_comm]
  | cons e rest ih =>
      simp only [insertSorted]
      split
      case h_1 => simp [lookup, eq_comm]
      case h_2 same =>
        have : k = e.1 := Std.LawfulEqOrd.eq_of_compare same
        grind [lookup]
      case h_3 above =>
        have apart : k ≠ e.1 := by
          intro same
          rw [same, Std.compare_self] at above
          contradiction
        grind [lookup]

theorem get?_insert (m : OrderedMap κ β) (k j : κ) (b : β) :
    (m.insert k b).get? j = if j = k then some b else m.get? j :=
  lookup_insertSorted k j b m.toList

/-- The map with `f` applied to the value of `k`, which is the default value if `k` is no key yet. -/
def update [Inhabited β] (m : OrderedMap κ β) (k : κ) (f : β → β) : OrderedMap κ β :=
  m.insert k (f ((m.get? k).getD default))

theorem get?_update [Inhabited β] (m : OrderedMap κ β) (k j : κ) (f : β → β) :
    (m.update k f).get? j = if j = k then some (f ((m.get? k).getD default)) else m.get? j :=
  get?_insert m k j _

@[ext] theorem ext {m n : OrderedMap κ β} (same : ∀ k, m.get? k = n.get? k) : m = n := by
  have entries (e : κ × β) : e ∈ m.toList ↔ e ∈ n.toList := by
    obtain ⟨k, b⟩ := e
    rw [← get?_eq_some_iff, ← get?_eq_some_iff, same]
  have distinct (m : OrderedMap κ β) : m.toList.Nodup :=
    m.ordered.imp fun {x y} below equal => by
      subst equal
      rw [Std.compare_self] at below
      contradiction
  have permuted := (List.perm_ext_iff_of_nodup (distinct m) (distinct n)).2 entries
  have : m.toList = n.toList := by
    refine permuted.eq_of_pairwise (fun x y _ _ below above => ?_) m.ordered n.ordered
    exact (Std.OrientedCmp.not_lt_of_lt below above).elim
  cases m
  cases n
  subst this
  rfl

end OrderedMap

end Predictive
