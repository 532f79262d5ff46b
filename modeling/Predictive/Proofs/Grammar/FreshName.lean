import Predictive.Proofs.FirstFollow.Iteration
import Mathlib.Data.List.Nodup
import Mathlib.Data.List.Perm.Subperm

set_option autoImplicit false

namespace Predictive

namespace Grammar

@[simp] theorem toList_primed (name : Symbol) (count : Nat) :
    (primed name count).toList = name.toList ++ List.replicate count '\'' := by
  simp [primed]

theorem primed_injective (name : Symbol) : Function.Injective (primed name) := by
  intro m n same
  have lengths := congrArg (fun s : String => s.toList.length) same
  simpa using lengths

theorem primed_ne_of_getLast {mark : Symbol} (other : mark.toList.getLast? ≠ some '\'')
    (name : Symbol) (count : Nat) : primed name (count + 1) ≠ mark := by
  intro same
  subst same
  apply other
  rw [toList_primed, List.replicate_succ', ← List.append_assoc]
  exact List.getLast?_concat

theorem isFree_iff {g : Grammar} {name : Symbol} {count : Nat} :
    g.isFree name count = true ↔ primed name (count + 1) ∉ g.allSymbols := by
  simp [isFree]

theorem exists_isFree (g : Grammar) (name : Symbol) :
    ∃ count ∈ List.range (g.allSymbols.length + 1), g.isFree name count = true := by
  by_contra none
  have taken : ∀ count ∈ List.range (g.allSymbols.length + 1),
      primed name (count + 1) ∈ g.allSymbols := by
    intro count inside
    by_contra free
    exact none ⟨count, inside, isFree_iff.2 free⟩
  let candidates := (List.range (g.allSymbols.length + 1)).map fun count => primed name (count + 1)
  have distinct : candidates.Nodup := by
    refine List.Nodup.map (fun m n same => ?_) List.nodup_range
    have := primed_injective name same
    omega
  have subset : candidates ⊆ g.allSymbols := by
    intro candidate inside
    obtain ⟨count, ranged, rfl⟩ := List.mem_map.1 inside
    exact taken count ranged
  have few := (List.subperm_of_subset distinct subset).length_le
  simp only [candidates, List.length_map, List.length_range] at few
  omega

/-- The fresh name has the fewest primes, at least one, with which a name is no symbol. -/
theorem freshName_spec (g : Grammar) (name : Symbol) :
    ∃ count, g.freshName name = primed name (count + 1) ∧
      primed name (count + 1) ∉ g.allSymbols ∧
      ∀ fewer < count, primed name (fewer + 1) ∈ g.allSymbols := by
  cases found : (List.range (g.allSymbols.length + 1)).find? (g.isFree name) with
  | none =>
      obtain ⟨count, ranged, free⟩ := g.exists_isFree name
      exact absurd free (List.find?_eq_none.1 found count ranged)
  | some count =>
      obtain ⟨free, -, least⟩ := List.find?_range_eq_some.1 found
      refine ⟨count, by rw [freshName, found, Option.getD_some], isFree_iff.1 free, ?_⟩
      intro fewer below
      have taken := least fewer below
      rw [Bool.not_eq_true'] at taken
      by_contra absent
      rw [isFree_iff.2 absent] at taken
      contradiction

theorem freshName_not_mem_allSymbols (g : Grammar) (name : Symbol) :
    g.freshName name ∉ g.allSymbols := by
  obtain ⟨count, same, free, -⟩ := g.freshName_spec name
  rwa [same]

theorem freshName_ne_epsilon (g : Grammar) (name : Symbol) : g.freshName name ≠ epsilon := by
  obtain ⟨count, same, -, -⟩ := g.freshName_spec name
  rw [same]
  exact primed_ne_of_getLast (by decide) name count

theorem freshName_ne_endMark (g : Grammar) (name : Symbol) : g.freshName name ≠ endMark := by
  obtain ⟨count, same, -, -⟩ := g.freshName_spec name
  rw [same]
  exact primed_ne_of_getLast (by decide) name count

section Search

variable {g : Grammar} {name : Symbol}

/-- A turn of the search: a symbol of the grammar gets a prime, any other text is left alone. -/
def lengthen (g : Grammar) (text : Symbol) : Except Fault Symbol :=
  .ok (if text ∈ g.allSymbols then text.push '\'' else text)

theorem push_prime (name : Symbol) (count : Nat) :
    (primed name count).push '\'' = primed name (count + 1) := by
  apply String.toList_injective
  rw [String.toList_push, toList_primed, toList_primed, List.replicate_succ', List.append_assoc]

theorem settles_lengthen {first last : Nat} (ahead : first ≤ last)
    (free : primed name last ∉ g.allSymbols)
    (used : ∀ count, first ≤ count → count < last → primed name count ∈ g.allSymbols) :
    Settles g.lengthen (last + 1 - first) (primed name first) (primed name last) := by
  induction left : last - first generalizing first with
  | zero =>
      obtain rfl : first = last := by omega
      rw [Nat.add_sub_cancel_left]
      refine .still ?_
      rw [lengthen, if_neg free]
  | succ left ih =>
      have turn : g.lengthen (primed name first) = .ok (primed name (first + 1)) := by
        rw [lengthen, if_pos (used first (by omega) (by omega)), push_prime]
      have longer : primed name (first + 1) ≠ primed name first := fun same => by
        have := primed_injective name same
        omega
      have turns : last + 1 - first = last + 1 - (first + 1) + 1 := by omega
      rw [turns]
      refine .onward turn longer (ih (by omega) (fun count reached below => ?_) (by omega))
      exact used count (by omega) below

/-- The search that begins with one prime ends at the fresh name, after as many turns as this has
primes. -/
theorem settles_freshName (g : Grammar) (name : Symbol) :
    ∃ count, 1 ≤ count ∧ g.freshName name = primed name count ∧
      Settles g.lengthen count (name.push '\'') (g.freshName name) ∧
      primed name count ∉ g.allSymbols ∧
      ∀ fewer, 1 ≤ fewer → fewer < count → primed name fewer ∈ g.allSymbols := by
  obtain ⟨count, same, free, least⟩ := g.freshName_spec name
  have used : ∀ fewer, 1 ≤ fewer → fewer < count + 1 → primed name fewer ∈ g.allSymbols := by
    intro fewer some below
    obtain ⟨fewer, rfl⟩ := Nat.exists_eq_add_of_le' some
    exact least fewer (by omega)
  have first : name.push '\'' = primed name 1 := by
    rw [← push_prime, primed, List.replicate_zero, String.ofList_nil, String.append_empty]
  refine ⟨count + 1, by omega, same, ?_, free, used⟩
  rw [same, first]
  exact settles_lengthen (by omega) free used

end Search

end Grammar

end Predictive
