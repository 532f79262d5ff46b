import Predictive.Body.CommonPrefix
import Mathlib.Data.List.Rotate

set_option autoImplicit false

namespace Predictive

variable {α : Type}

/-- Of the lists that places offer, `found` is a longest one, and no place before `place` offers one
of its length. -/
structure FirstLongest {ι : Type} (before : ι → ι → Prop) (offers : ι → List α → Prop) (place : ι)
    (found : List α) : Prop where
  offered : offers place found
  greatest : ∀ other s, offers other s → s.length ≤ found.length
  earlier : ∀ other s, offers other s → before other place → s.length < found.length

/-- What a search through places that begins with `best` may end with: `best` if no place offers a
longer list, and otherwise the longest list that is offered first. -/
def Improves {ι : Type} (before : ι → ι → Prop) (offers : ι → List α → Prop)
    (best found : List α) : Prop :=
  found = best ∧ (∀ place s, offers place s → s.length ≤ best.length) ∨
    best.length < found.length ∧ ∃ place, FirstLongest before offers place found

/-- The lexicographic order of pairs of positions. -/
def BeforePair (p q : Nat × Nat) : Prop := p.1 < q.1 ∨ p.1 = q.1 ∧ p.2 < q.2

/-- The lists at two positions, the lesser of which is named first, both begin with `s`. -/
def SharedAt (lists : List (List α)) (pair : Nat × Nat) (s : List α) : Prop :=
  pair.1 < pair.2 ∧ ∃ a b, lists[pair.1]? = some a ∧ lists[pair.2]? = some b ∧ s <+: a ∧ s <+: b

section Search

variable {ι κ μ : Type} {before : ι → ι → Prop} {offers : ι → List α → Prop}
  {beforeLeft : κ → κ → Prop} {offersLeft : κ → List α → Prop}
  {beforeRight : μ → μ → Prop} {offersRight : μ → List α → Prop} {best middle found : List α}

theorem Improves.le (improves : Improves before offers best found) :
    best.length ≤ found.length := by
  rcases improves with ⟨rfl, -⟩ | ⟨longer, -⟩
  · exact Nat.le_refl _
  · exact Nat.le_of_lt longer

theorem Improves.greatest (improves : Improves before offers best found) {place : ι} {s : List α}
    (offered : offers place s) : s.length ≤ found.length := by
  rcases improves with ⟨rfl, none⟩ | ⟨-, _, longest⟩
  · exact none place s offered
  · exact longest.greatest place s offered

/-- A search through some places and then through the others is a search through all. -/
theorem Improves.trans (left : κ → ι) (right : μ → ι)
    (split : ∀ place s, offers place s ↔
      (∃ k, place = left k ∧ offersLeft k s) ∨ ∃ m, place = right m ∧ offersRight m s)
    (insideLeft : ∀ k k', before (left k) (left k') → beforeLeft k k')
    (insideRight : ∀ m m', before (right m) (right m') → beforeRight m m')
    (across : ∀ k m, ¬ before (right m) (left k))
    (first : Improves beforeLeft offersLeft best middle)
    (second : Improves beforeRight offersRight middle found) :
    Improves before offers best found := by
  have greatest : ∀ place s, offers place s → s.length ≤ found.length := by
    intro place s offered
    rcases (split place s).1 offered with ⟨k, -, here⟩ | ⟨m, -, here⟩
    · exact Nat.le_trans (first.greatest here) second.le
    · exact second.greatest here
  rcases second with ⟨rfl, -⟩ | ⟨longer, m, longest⟩
  · rcases first with ⟨rfl, -⟩ | ⟨longer, k, longest⟩
    · exact .inl ⟨rfl, greatest⟩
    · refine .inr ⟨longer, left k, (split _ _).2 (.inl ⟨k, rfl, longest.offered⟩), greatest, ?_⟩
      intro other s offered earlier
      rcases (split other s).1 offered with ⟨k', rfl, here⟩ | ⟨m, rfl, -⟩
      · exact longest.earlier k' s here (insideLeft k' k earlier)
      · exact absurd earlier (across k m)
  · refine .inr ⟨Nat.lt_of_le_of_lt first.le longer, right m,
      (split _ _).2 (.inr ⟨m, rfl, longest.offered⟩), greatest, ?_⟩
    intro other s offered earlier
    rcases (split other s).1 offered with ⟨k, rfl, here⟩ | ⟨m', rfl, here⟩
    · exact Nat.lt_of_le_of_lt (first.greatest here) longer
    · exact longest.earlier m' s here (insideRight m' m earlier)

end Search

variable [DecidableEq α]

theorem commonPrefix_isPrefix_right (a b : List α) : commonPrefix a b <+: b := by
  rw [commonPrefix_comm]
  exact commonPrefix_isPrefix_left b a

theorem improves_longerPrefix (x best y : List α) :
    Improves (fun _ _ : Unit => False) (fun _ s => s <+: x ∧ s <+: y) best
      (longerPrefix x best y) := by
  have greatest : ∀ s : List α, s <+: x ∧ s <+: y → s.length ≤ commonPrefixSize x y :=
    fun s shared => (isPrefix_commonPrefix shared.1 shared.2).length_le
  unfold longerPrefix
  split
  case isTrue longer =>
    have shared := And.intro (commonPrefix_isPrefix_left x y) (commonPrefix_isPrefix_right x y)
    exact .inr ⟨longer, (), shared, fun _ => greatest, fun _ _ _ => False.elim⟩
  case isFalse shorter =>
    exact .inl ⟨rfl, fun _ s shared => Nat.le_trans (greatest s shared) (Nat.le_of_not_lt shorter)⟩

theorem improves_foldl_longerPrefix (x best : List α) (rest : List (List α)) :
    Improves (fun j k : Nat => j < k) (fun j s => ∃ y, rest[j]? = some y ∧ s <+: x ∧ s <+: y) best
      (rest.foldl (longerPrefix x) best) := by
  induction rest generalizing best with
  | nil => exact .inl ⟨rfl, by simp⟩
  | cons y rest ih =>
      refine Improves.trans (fun _ => 0) (· + 1) ?_ ?_ ?_ ?_ (improves_longerPrefix x best y)
        (ih (longerPrefix x best y))
      · intro j s
        cases j <;> simp
      · exact fun _ _ same => absurd same (Nat.lt_irrefl 0)
      · exact fun _ _ => Nat.lt_of_succ_lt_succ
      · exact fun _ m => Nat.not_lt_zero (m + 1)

theorem improves_longestCommonPrefixFrom (best : List α) (lists : List (List α)) :
    Improves BeforePair (SharedAt lists) best (longestCommonPrefixFrom best lists) := by
  induction lists generalizing best with
  | nil => exact .inl ⟨rfl, by simp [SharedAt]⟩
  | cons x rest ih =>
      refine Improves.trans (fun j => (0, j + 1)) (fun pair => (pair.1 + 1, pair.2 + 1)) ?_ ?_ ?_ ?_
        (improves_foldl_longerPrefix x best rest) (ih _)
      · intro pair s
        obtain ⟨i, j⟩ := pair
        cases j with
        | zero => simp [SharedAt]
        | succ j => cases i <;> simp [SharedAt]
      · simp [BeforePair]
      · simp [BeforePair]
      · simp [BeforePair]

theorem FirstLongest.exists_eq_commonPrefix {before : Nat × Nat → Nat × Nat → Prop}
    {lists : List (List α)} {pair : Nat × Nat} {found : List α}
    (longest : FirstLongest before (SharedAt lists) pair found) :
    pair.1 < pair.2 ∧ ∃ a b, lists[pair.1]? = some a ∧ lists[pair.2]? = some b ∧
      found = commonPrefix a b := by
  obtain ⟨ordered, a, b, first, second, begins, begins'⟩ := longest.offered
  refine ⟨ordered, a, b, first, second, ?_⟩
  have shared : SharedAt lists pair (commonPrefix a b) := ⟨ordered, a, b, first, second,
    commonPrefix_isPrefix_left a b, commonPrefix_isPrefix_right a b⟩
  exact (isPrefix_commonPrefix begins begins').eq_of_length_le (longest.greatest pair _ shared)

theorem pairwise_longestCommonPrefix (lists : List (List α)) :
    lists.Pairwise fun x y => commonPrefixSize x y ≤ (longestCommonPrefix lists).length := by
  refine List.pairwise_iff_getElem.2 fun i j first second ordered => ?_
  have shared : SharedAt lists (i, j) (commonPrefix lists[i] lists[j]) :=
    ⟨ordered, lists[i], lists[j], List.getElem?_eq_getElem first, List.getElem?_eq_getElem second,
      commonPrefix_isPrefix_left _ _, commonPrefix_isPrefix_right _ _⟩
  exact (improves_longestCommonPrefixFrom [] lists).greatest shared

theorem longestCommonPrefix_eq (lists : List (List α)) :
    longestCommonPrefix lists = [] ∨
      ∃ x y, [x, y].Sublist lists ∧ longestCommonPrefix lists = commonPrefix x y := by
  rcases improves_longestCommonPrefixFrom [] lists with ⟨nothing, -⟩ | ⟨-, pair, longest⟩
  · exact .inl nothing
  · obtain ⟨ordered, a, b, first, second, same⟩ := longest.exists_eq_commonPrefix
    obtain ⟨inside, rfl⟩ := List.getElem?_eq_some_iff.1 first
    obtain ⟨inside', rfl⟩ := List.getElem?_eq_some_iff.1 second
    have pairs : lists.Pairwise fun x y => [x, y].Sublist lists :=
      List.pairwise_iff_forall_sublist.2 fun listed => listed
    exact .inr ⟨_, _, List.pairwise_iff_getElem.1 pairs _ _ inside inside' ordered, same⟩

/-- The order of the lists has no influence on how long the longest common beginning is. -/
theorem length_longestCommonPrefix_le_of_perm {lists lists' : List (List α)}
    (permuted : lists.Perm lists') :
    (longestCommonPrefix lists').length ≤ (longestCommonPrefix lists).length := by
  rcases longestCommonPrefix_eq lists' with nothing | ⟨x, y, listed, same⟩
  · rw [nothing]
    exact Nat.zero_le _
  · have symmetric {a b : List α}
        (small : commonPrefixSize a b ≤ (longestCommonPrefix lists).length) :
        commonPrefixSize b a ≤ (longestCommonPrefix lists).length := by
      rwa [commonPrefixSize, commonPrefix_comm]
    have small := (permuted.pairwise_iff symmetric).1 (pairwise_longestCommonPrefix lists)
    rw [same]
    exact List.pairwise_iff_forall_sublist.1 small listed

/-- If two lists begin alike, then the longest common beginning is that of the first pair of lists that
shares most, and nothing longer begins the lists at two positions. Otherwise it is empty. How long it
is does not depend on the order of the lists. -/
theorem longestCommonPrefix_firstLongest (lists : List (List α)) :
    ((∃ pair s, s ≠ [] ∧ SharedAt lists pair s) →
      ∃ i j a b, i < j ∧ lists[i]? = some a ∧ lists[j]? = some b ∧
        longestCommonPrefix lists = commonPrefix a b ∧
        FirstLongest BeforePair (SharedAt lists) (i, j) (longestCommonPrefix lists)) ∧
    ((¬ ∃ pair s, s ≠ [] ∧ SharedAt lists pair s) → longestCommonPrefix lists = []) ∧
    ∀ lists', lists.Perm lists' →
      (longestCommonPrefix lists').length = (longestCommonPrefix lists).length := by
  refine ⟨fun shared => ?_, fun apart => ?_, fun lists' permuted => Nat.le_antisymm
    (length_longestCommonPrefix_le_of_perm permuted)
    (length_longestCommonPrefix_le_of_perm permuted.symm)⟩
  · obtain ⟨pair, s, some, offered⟩ := shared
    rcases improves_longestCommonPrefixFrom [] lists with ⟨-, none⟩ | ⟨-, pair, longest⟩
    · exact absurd (List.length_eq_zero_iff.1 (Nat.le_zero.1 (none pair s offered))) some
    · obtain ⟨ordered, a, b, first, second, same⟩ := longest.exists_eq_commonPrefix
      exact ⟨pair.1, pair.2, a, b, ordered, first, second, same, longest⟩
  · rcases improves_longestCommonPrefixFrom [] lists with ⟨nothing, -⟩ | ⟨longer, pair, longest⟩
    · exact nothing
    · exact absurd ⟨pair, _, List.ne_nil_of_length_pos longer, longest.offered⟩ apart

/-- Two pairs share one symbol each. That of the second and the third list is found later, though its
lists stand before the end of the other pair. -/
def nestedPairs : List (List String) := [["a", "x"], ["b", "y"], ["b", "z"], [], ["a", "w"]]

theorem nestedPairs_firstLongest :
    SharedAt nestedPairs (1, 2) ["b"] ∧
      (∃ i j a b, i < j ∧ nestedPairs[i]? = some a ∧ nestedPairs[j]? = some b ∧
        ["a"] = commonPrefix a b ∧ FirstLongest BeforePair (SharedAt nestedPairs) (i, j) ["a"]) ∧
      longestCommonPrefix (nestedPairs.rotate 1) = ["b"] ∧
      (longestCommonPrefix (nestedPairs.rotate 1)).length =
        (longestCommonPrefix nestedPairs).length := by
  have shared : SharedAt nestedPairs (1, 2) ["b"] :=
    ⟨by decide, ["b", "y"], ["b", "z"], rfl, rfl, by decide, by decide⟩
  have result : longestCommonPrefix nestedPairs = ["a"] := by decide
  obtain ⟨exact, -, reordered⟩ := longestCommonPrefix_firstLongest nestedPairs
  obtain ⟨i, j, a, b, longest⟩ := exact ⟨(1, 2), ["b"], by decide, shared⟩
  rw [result] at longest
  exact ⟨shared, ⟨i, j, a, b, longest⟩, by decide, reordered _ (List.rotate_perm _ 1).symm⟩

end Predictive
