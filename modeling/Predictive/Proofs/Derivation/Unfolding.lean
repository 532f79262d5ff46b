import Predictive.Proofs.Derivation.Language
import Predictive.Proofs.Grammar.Replacement

set_option autoImplicit false

namespace Predictive

namespace Grammar

variable {g h : Grammar} {head name : Symbol} {c : Body} {results chosen : List Body}
  {expand : Body → List Body}

/-- `results` are `c` with each body of `name` in place of the first occurrence of `name`. -/
def Unfolds (g : Grammar) (name : Symbol) (c : Body) (results : List Body) : Prop :=
  ∃ before after, Body.symbols c = before ++ name :: after ∧ name ∉ before ∧
    (∀ e ∈ results, Body.IsNormal e) ∧
    results.map Body.symbols =
      (g.bodies name).toList.map fun p => before ++ (Body.symbols p ++ after)

theorem Unfolds.ne_nil (unfolds : g.Unfolds name c results) {p : Body}
    (inside : p ∈ g.bodies name) : results ≠ [] := by
  obtain ⟨before, after, -, -, -, same⟩ := unfolds
  intro same
  subst same
  have none : (g.bodies name).toList = [] := by simpa using same.symm
  rw [← OrderedSet.mem_toList, none] at inside
  simp at inside

theorem Unfolds.symbols_of_mem (unfolds : g.Unfolds name c results) {e : Body}
    (inside : e ∈ results) : ∃ before after, ∃ p ∈ g.bodies name,
      Body.symbols c = before ++ name :: after ∧ name ∉ before ∧
      Body.symbols e = before ++ (Body.symbols p ++ after) := by
  obtain ⟨before, after, symbols, first, -, same⟩ := unfolds
  have listed : Body.symbols e ∈ results.map Body.symbols := List.mem_map_of_mem inside
  rw [same, List.mem_map] at listed
  obtain ⟨p, body, equal⟩ := listed
  exact ⟨before, after, p, body, symbols, first, equal.symm⟩

theorem Unfolds.derives_of_mem (unfolds : g.Unfolds name c results) {e : Body}
    (inside : e ∈ results) {w : List Symbol} (derived : g.Derives (Body.symbols e) w) :
    g.Derives (Body.symbols c) w := by
  obtain ⟨before, after, p, body, symbols, -, unfolded⟩ := unfolds.symbols_of_mem inside
  rw [unfolded] at derived
  obtain ⟨front, rest, rfl, left, right⟩ := derives_append_iff.1 derived
  obtain ⟨middle, back, rfl, expanded, last⟩ := derives_append_iff.1 right
  rw [symbols]
  exact left.append (.expand body expanded last)

theorem Unfolds.exists_derives (unfolds : g.Unfolds name c results) (apart : ¬ name ∈ h.terminals)
    (same : h.bodies name = g.bodies name) {w : List Symbol} (terminal : h.TerminalString w)
    (derived : h.Derives (Body.symbols c) w) : ∃ e ∈ results, h.Derives (Body.symbols e) w := by
  obtain ⟨before, after, symbols, -, -, equal⟩ := unfolds
  rw [symbols] at derived
  obtain ⟨front, rest, rfl, left, right⟩ := derives_append_iff.1 derived
  have split : h.Derives ([name] ++ after) rest := right
  obtain ⟨middle, back, rfl, single, last⟩ := derives_append_iff.1 split
  have inner := (terminalString_append.1 (terminalString_append.1 terminal).2).1
  obtain ⟨p, body, expanded⟩ := exists_body_of_derives apart single inner
  rw [same] at body
  have listed : before ++ (Body.symbols p ++ after) ∈ results.map Body.symbols := by
    rw [equal]
    exact List.mem_map_of_mem body
  obtain ⟨e, inside, unfolded⟩ := List.mem_map.1 listed
  refine ⟨e, inside, ?_⟩
  rw [unfolded]
  exact left.append (expanded.append last)

theorem Unfolds.fits (valid : g.WellFormed) (unfolds : g.Unfolds name c results) (fit : g.Fits c)
    {e : Body} (inside : e ∈ results) : g.Fits e := by
  obtain ⟨before, after, p, body, symbols, -, unfolded⟩ := unfolds.symbols_of_mem inside
  obtain ⟨-, -, -, -, normal, -⟩ := unfolds
  refine ⟨normal e inside, fun s within => ?_⟩
  have outer := fit.2
  rw [symbols] at outer
  rw [unfolded, List.mem_append, List.mem_append] at within
  rcases within with front | middle | back
  · exact outer s (List.mem_append_left _ front)
  · exact (valid.fits name p body).2 s middle
  · exact outer s (List.mem_append_right _ (List.mem_cons_of_mem name back))

section Replace

variable (valid : g.WellFormed) (known : head ∈ g.names) (unfolded : name ∈ g.names)
  (apart : name ≠ head) (chosenBodies : ∀ c ∈ chosen, c ∈ g.bodies head)
  (unfolds : ∀ c ∈ chosen, g.Unfolds name c (expand c))

include valid known unfolded chosenBodies unfolds in
theorem rewrites_of_unfolds :
    g.Rewrites (g.setBodies head (replaceBodies (g.bodies head) chosen expand)) where
  wellFormed := by
    refine valid.setBodies known ?_ fun b inside => ?_
    · obtain ⟨b, inside⟩ := valid.inhabited head known
      obtain ⟨p, body⟩ := valid.inhabited name unfolded
      exact exists_mem_replaceBodies inside fun c within => (unfolds c within).ne_nil body
    · rcases mem_of_mem_replaceBodies inside with ⟨old, -⟩ | ⟨c, within, added⟩
      · exact valid.fits head b old
      · exact (unfolds c within).fits valid (valid.fits head c (chosenBodies c within)) added
  start := rfl
  terminals := rfl
  names name named := by rwa [names_setBodies]
  stale := .inr rfl

include valid known unfolded apart chosenBodies unfolds in
theorem preserves_of_unfolds :
    g.Preserves (g.setBodies head (replaceBodies (g.bodies head) chosen expand)) := by
  have bodies' : ∀ s, (g.setBodies head (replaceBodies (g.bodies head) chosen expand)).bodies s =
      if s = head then replaceBodies (g.bodies head) chosen expand else g.bodies s :=
    fun s => bodies_setBodies known s _
  have rewrites := rewrites_of_unfolds valid known unfolded chosenBodies unfolds
  generalize g.setBodies head (replaceBodies (g.bodies head) chosen expand) = g'
    at bodies' rewrites ⊢
  refine .of_respects rewrites (fun s b inside v inner body => ?forth)
    (fun s b inside v inner body => ?back)
  case forth =>
    by_cases same : s = head
    · subst same
      have final : ∀ b ∈ replaceBodies (g.bodies s) chosen expand, ∀ v, g.TerminalString v →
          g'.Derives (Body.symbols b) v → g'.Derives [s] v := by
        intro b left v _ body
        refine derives_of_mem_bodies ?_ body
        rwa [bodies', if_pos rfl]
      refine replaceBodies_induction final (fun c within later v inner body => ?_) b inside v inner
        body
      obtain ⟨e, added, expanded⟩ := (unfolds c within).exists_derives
        (rewrites.wellFormed.disjoint name (rewrites.names name unfolded))
        (by rw [bodies', if_neg apart]) (rewrites.terminalString_iff.2 inner) body
      exact later e added v inner expanded
    · refine derives_of_mem_bodies ?_ body
      rwa [bodies', if_neg same]
  case back =>
    rw [bodies'] at inside
    split at inside
    case isFalse => exact derives_of_mem_bodies inside body
    case isTrue same =>
      subst same
      rcases mem_of_mem_replaceBodies inside with ⟨old, -⟩ | ⟨c, within, added⟩
      · exact derives_of_mem_bodies old body
      · exact derives_of_mem_bodies (chosenBodies c within)
          ((unfolds c within).derives_of_mem added body)

end Replace

end Grammar

end Predictive
