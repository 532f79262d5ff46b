import Predictive.Proofs.Derivation.Unfolding
import Predictive.Grammar.Factoring

set_option autoImplicit false

namespace Predictive

namespace Grammar

variable {g : Grammar} {head inlined : Symbol}

theorem takeWhile_append_of_mem {name : Symbol} {b : Body} (inside : name ∈ b) :
    b = (b.takeWhile fun s => !decide (s = name)) ++
      name :: (b.dropWhile fun s => !decide (s = name)).tail := by
  induction b with
  | nil => simp at inside
  | cons s b ih =>
      by_cases same : s = name
      · simp [same]
      · have later : name ∈ b := (List.mem_cons.1 inside).resolve_left fun equal => same equal.symm
        simp only [List.takeWhile_cons, List.dropWhile_cons, same, decide_false, Bool.not_false,
          ↓reduceIte, List.cons_append, ← ih later]

theorem unfolds_expandFirst (valid : g.WellFormed) (known : inlined ∈ g.names) {c : Body}
    (inside : inlined ∈ c) :
    g.Unfolds inlined c (expandFirst inlined (g.bodies inlined).toList c) := by
  have split := congrArg Body.symbols (takeWhile_append_of_mem inside)
  have marked : Body.symbols [inlined] = [inlined] := by
    simp [Body.symbols, valid.ne_epsilon known]
  rw [Body.symbols_append, ← List.singleton_append, Body.symbols_append, marked,
    List.singleton_append] at split
  refine ⟨_, _, split, fun among => ?_, ?_, ?_⟩
  · have passed := List.all_eq_true.1 List.all_takeWhile inlined (Body.mem_symbols.1 among).1
    simp at passed
  · intro e made
    obtain ⟨r, -, rfl⟩ := List.mem_map.1 made
    exact Body.isNormal_normalize _
  · simp only [expandFirst, List.map_map]
    apply List.map_congr_left
    intro r _
    simp only [Function.comp_apply, Body.symbols_join, List.append_assoc]

theorem mem_filter_mentions {c : Body} :
    c ∈ (g.bodies head).toList.filter (fun b => decide (inlined ∈ b)) ↔
      c ∈ g.bodies head ∧ inlined ∈ c := by
  rw [List.mem_filter, OrderedSet.mem_toList, decide_eq_true_eq]

theorem preserves_inline (valid : g.WellFormed) (known : head ∈ g.names)
    (unfolded : inlined ∈ g.names) (apart : inlined ≠ head) :
    g.Preserves (g.inline head inlined) := by
  simp only [inline]
  split
  case isTrue => exact .refl valid
  case isFalse =>
    exact preserves_of_unfolds valid known unfolded apart
      (fun c chosen => (mem_filter_mentions.1 chosen).1)
      (fun c chosen => unfolds_expandFirst valid unfolded (mem_filter_mentions.1 chosen).2)

@[simp] theorem names_inline : (g.inline head inlined).names = g.names := by
  simp only [inline]
  split
  · rfl
  · exact names_setBodies g head _

theorem mem_names_of_mem_collisions {group : List Symbol} (held : g.Named)
    (collides : group ∈ g.collisions) : ∀ name ∈ group, name ∈ g.names := by
  rw [collisions, OrderedSet.mem_ofList, List.mem_filter, List.mem_map] at collides
  obtain ⟨⟨terminal, -, rfl⟩, -⟩ := collides
  intro name member
  rw [namesStarting, OrderedSet.mem_toList, OrderedSet.mem_ofList, List.mem_map] at member
  obtain ⟨entry, listed, rfl⟩ := member
  obtain ⟨key, found⟩ := OrderedMap.mem_values.1 (List.mem_filter.1 listed).1
  rw [held key entry found]
  exact OrderedMap.mem_of_get?_eq_some found

section Phase

variable {I : Grammar → Prop} (step : ∀ h head inlined, h.WellFormed → head ∈ h.names →
  inlined ∈ h.names → inlined ≠ head → I h → I (h.inline head inlined))

include step in
theorem inlineGroup_induction {h : Grammar} {group : List Symbol}
    (members : ∀ name ∈ group, name ∈ g.names) (known : head ∈ g.names)
    (kept : h.names = g.names ∧ g.Preserves h ∧ I h) :
    (inlineGroup group h head).names = g.names ∧ g.Preserves (inlineGroup group h head) ∧
      I (inlineGroup group h head) := by
  unfold inlineGroup
  split
  case isTrue => exact kept
  case isFalse =>
    refine List.foldlRecOn (motive := fun h => h.names = g.names ∧ g.Preserves h ∧ I h) _ _ kept
      fun h kept inlined among => ?_
    obtain ⟨same, preserved, inv⟩ := kept
    obtain ⟨member, apart⟩ : inlined ∈ group ∧ inlined ≠ head := by
      simpa only [List.mem_filter, Bool.not_eq_true', decide_eq_false_iff_not] using among
    have named : head ∈ h.names := same ▸ known
    have named' : inlined ∈ h.names := same ▸ members inlined member
    have inlines := preserves_inline preserved.wellFormed named named' apart
    exact ⟨names_inline.trans same, preserved.trans inlines,
      step h head inlined preserved.wellFormed named named' apart inv⟩

include step in
/-- What holds at the beginning and is kept by every inlining of one non-terminal into another holds
in the end, and the languages are kept as well. -/
theorem inlineCollisions_induction (valid : g.WellFormed) (start : I g) :
    g.Preserves g.inlineCollisions ∧ I g.inlineCollisions := by
  have run : g.inlineCollisions.names = g.names ∧ g.Preserves g.inlineCollisions ∧
      I g.inlineCollisions := by
    refine List.foldlRecOn (motive := fun h => h.names = g.names ∧ g.Preserves h ∧ I h) _ _
      ⟨rfl, .refl valid, start⟩ fun h kept group collides => ?_
    have members := mem_names_of_mem_collisions valid.named (OrderedSet.mem_toList.1 collides)
    have heads := kept.1
    refine List.foldlRecOn (motive := fun h => h.names = g.names ∧ g.Preserves h ∧ I h) _ _ kept
      fun h kept head named => ?_
    exact inlineGroup_induction step members (heads ▸ named) kept
  exact run.2

end Phase

theorem preserves_inlineCollisions (valid : g.WellFormed) : g.Preserves g.inlineCollisions :=
  (inlineCollisions_induction (I := fun _ => True) (fun _ _ _ _ _ _ _ _ => trivial) valid trivial).1

end Grammar

end Predictive
