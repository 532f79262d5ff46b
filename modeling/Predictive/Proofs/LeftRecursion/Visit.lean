import Predictive.Proofs.LeftRecursion.Elimination
import Mathlib.Data.List.Induction

set_option autoImplicit false

namespace Predictive

namespace Grammar

variable {g : Grammar} {head earlier name : Symbol} {visited : List Symbol} {b : Body}

section Expand

variable (known : head ∈ g.names)

@[simp] theorem names_expandLeading : (g.expandLeading head earlier).names = g.names := by
  simp only [expandLeading]
  split
  · rfl
  · exact names_setBodies g head _

@[simp] theorem names_expandVisited : (g.expandVisited visited head).names = g.names := by
  induction visited generalizing g with
  | nil => rfl
  | cons earlier visited ih =>
      have rest : ((g.expandLeading head earlier).expandVisited visited head).names = _ := ih
      rwa [names_expandLeading] at rest

include known in
theorem bodies_expandLeading_of_ne (other : name ≠ head) :
    (g.expandLeading head earlier).bodies name = g.bodies name := by
  simp only [expandLeading]
  split
  · rfl
  · rw [bodies_setBodies known, if_neg other]

include known in
theorem mem_bodies_expandLeading (inside : b ∈ (g.expandLeading head earlier).bodies head) :
    (b ∈ g.bodies head ∧ ¬ ∃ rest, b = earlier :: rest) ∨
      ∃ rest, earlier :: rest ∈ g.bodies head ∧ ∃ p ∈ g.bodies earlier, b = Body.join p rest := by
  simp only [expandLeading] at inside
  split at inside
  case isTrue none =>
    refine .inl ⟨inside, fun begins => ?_⟩
    have leading := mem_bodiesStarting.2 ⟨inside, begins⟩
    rw [List.isEmpty_iff.1 none] at leading
    exact List.not_mem_nil leading
  case isFalse =>
    rw [bodies_setBodies known, if_pos rfl] at inside
    rcases mem_of_mem_replaceBodies inside with ⟨old, left⟩ | ⟨c, leading, added⟩
    · exact .inl ⟨old, fun begins => left (mem_bodiesStarting.2 ⟨old, begins⟩)⟩
    · obtain ⟨old, rest, rfl⟩ := mem_bodiesStarting.1 leading
      obtain ⟨p, body, rfl⟩ := List.mem_map.1 added
      exact .inr ⟨rest, old, p, OrderedSet.mem_toList.1 body, rfl⟩

include known in
theorem bodies_expandVisited_of_ne (other : name ≠ head) :
    (g.expandVisited visited head).bodies name = g.bodies name := by
  induction visited generalizing g with
  | nil => rfl
  | cons earlier visited ih =>
      have rest : ((g.expandLeading head earlier).expandVisited visited head).bodies name = _ :=
        ih (by rwa [names_expandLeading])
      rwa [bodies_expandLeading_of_ne known other] at rest

include known in
/-- What holds of the bodies of `head` at first, and passes to the bodies that are kept and to those
that are put in whenever a visited non-terminal is expanded, holds of them in the end. -/
theorem mem_bodies_expandVisited {P : List Symbol → Body → Prop} (apart : head ∉ visited)
    (own : ∀ b ∈ g.bodies head, P [] b)
    (keep : ∀ done earlier b, done ++ [earlier] <+: visited → P done b →
      (¬ ∃ rest, b = earlier :: rest) → P (done ++ [earlier]) b)
    (join : ∀ done earlier rest, done ++ [earlier] <+: visited → P done (earlier :: rest) →
      ∀ p ∈ g.bodies earlier, P (done ++ [earlier]) (Body.join p rest)) :
    ∀ b ∈ (g.expandVisited visited head).bodies head, P visited b := by
  induction visited using List.reverseRecOn with
  | nil => exact own
  | append_singleton visited earlier ih =>
      have before : ∀ b ∈ (g.expandVisited visited head).bodies head, P visited b :=
        ih (fun among => apart (List.mem_append_left _ among))
          (fun done other b begins => keep done other b (begins.trans (List.prefix_append _ _)))
          (fun done other rest begins => join done other rest (begins.trans (List.prefix_append _ _)))
      have other : earlier ≠ head := by
        rintro rfl
        exact apart (List.mem_append_right _ List.mem_cons_self)
      intro b inside
      rw [expandVisited, List.foldl_append] at inside
      have last : b ∈ ((g.expandVisited visited head).expandLeading head earlier).bodies head :=
        inside
      rcases mem_bodies_expandLeading (by rwa [names_expandVisited]) last with
        ⟨old, kept⟩ | ⟨rest, old, p, body, rfl⟩
      · exact keep visited earlier b (List.prefix_refl _) (before b old) kept
      · rw [bodies_expandVisited_of_ne known other] at body
        exact join visited earlier rest (List.prefix_refl _) (before _ old) p body

end Expand

section Settle

/-- No body of the non-terminal begins with it, or all bodies do. -/
def Settled (g : Grammar) (name : Symbol) : Prop :=
  (∀ b ∈ g.bodies name, ¬ ∃ rest, b = name :: rest) ∨ ∀ b ∈ g.bodies name, ∃ rest, b = name :: rest

variable (valid : g.WellFormed) (known : head ∈ g.names)

include valid known in
theorem bodies_removeImmediate_of_ne (old : name ∈ g.names) (other : name ≠ head) :
    (g.removeImmediate head).bodies name = g.bodies name := by
  rcases removeImmediate_cases valid known with ⟨-, same⟩ | trims | ⟨fresh, -, -, loops⟩
  · rw [same]
  · exact trims.bodies name other
  · exact loops.bodies name other (loops.ne_fresh_of_mem (mem_allSymbols.2 (.inl old)))

include valid known in
theorem symbols_recursiveTail {tail : Body} (within : tail ∈ g.recursiveTails head) :
    Body.symbols tail = tail := by
  have clean := valid.ne_epsilon known
  have whole := (valid.fits head _ (mem_recursiveTails.1 within).2).symbols_eq
    (by simp [symbols_cons clean])
  rw [symbols_cons clean] at whole
  exact (List.cons.inj whole).2

theorem Introduces.join_fresh_begins_iff {g' : Grammar} {fresh s : Symbol}
    (introduces : g.Introduces g' head fresh) (fit : g.Fits b) (other : s ≠ epsilon)
    (apart : s ≠ fresh) :
    (∃ rest, Body.join b [fresh] = s :: rest) ↔ ∃ rest, b = s :: rest := by
  have fit' : g'.Fits (Body.join b [fresh]) := introduces.fits_join_fresh fit.2
  rw [fit'.begins_iff other, fit.begins_iff other, introduces.symbols_join_fresh]
  cases Body.symbols b with
  | nil => simp [apart.symm]
  | cons first rest => simp

include valid known in
theorem settled_removeImmediate : (g.removeImmediate head).Settled head ∧
    ∀ name ∈ (g.removeImmediate head).names, name ∉ g.names →
      (g.removeImmediate head).Settled name := by
  rcases removeImmediate_cases valid known with ⟨all, same⟩ | trims | ⟨fresh, -, -, loops⟩
  · rw [same]
    exact ⟨.inr all, fun name named new => absurd named new⟩
  · refine ⟨.inl fun b inside => (mem_directBodies.1 ((trims.direct b).1 inside)).2, ?_⟩
    intro name named new
    rw [trims.names] at named
    exact absurd named new
  · have clean : head ≠ epsilon := valid.ne_epsilon known
    refine ⟨.inl fun b inside => ?_, fun name named new => ?_⟩
    · obtain ⟨c, direct, rfl⟩ := (loops.direct b).1 inside
      obtain ⟨old, apart⟩ := mem_directBodies.1 direct
      rwa [loops.join_fresh_begins_iff (valid.fits head c old) clean loops.apart]
    · obtain rfl := ((loops.names name).1 named).resolve_right new
      refine .inl fun b inside begins => ?_
      obtain ⟨rest, rfl⟩ := begins
      rcases (loops.loop _).1 inside with single | ⟨tail, within, same⟩
      · exact loops.notEpsilon (List.cons.inj single).1
      · -- the tail has a symbol of its own in front, and that one is old
        have symbols := symbols_recursiveTail valid known within
        obtain ⟨some, whole⟩ := mem_recursiveTails.1 within
        obtain ⟨first, tail, rfl⟩ := List.exists_cons_of_ne_nil some
        have same' := congrArg Body.symbols same
        rw [symbols_cons loops.notEpsilon, loops.symbols_join_fresh, symbols] at same'
        obtain ⟨rfl, -⟩ := List.cons.inj same'
        refine loops.not_mem_symbols valid whole ?_
        rw [symbols_cons clean, symbols]
        exact List.mem_cons_of_mem head List.mem_cons_self

theorem Turn.bodies_visit_of_ne {h : Grammar} {before : List Symbol} (turn : g.Turn h before head)
    (old : name ∈ h.names) (other : name ≠ head) :
    (h.visit before head).bodies name = h.bodies name := by
  have expanded := turn.preserves_expandVisited
  rw [visit, bodies_removeImmediate_of_ne expanded.wellFormed (expanded.names head turn.known)
    (by rwa [names_expandVisited]) other, bodies_expandVisited_of_ne turn.known other]

end Settle

/-- After the removal of left recursion every non-terminal is settled, the fresh ones as well. -/
theorem settled_eliminateLeftRecursion (valid : g.WellFormed) :
    ∀ name ∈ g.eliminateLeftRecursion.names, g.eliminateLeftRecursion.Settled name := by
  have run := eliminateLeftRecursion_induction (g := g)
    (I := fun before h => ∀ name ∈ h.names, (name ∈ g.names → name ∈ before) → h.Settled name)
    valid (fun name named visited => absurd (visited named) List.not_mem_nil) ?step
  case step =>
    intro before head h turn inv name named visited
    have expanded := turn.preserves_expandVisited
    have settled := settled_removeImmediate expanded.wellFormed (expanded.names head turn.known)
    by_cases same : name = head
    · rw [same]
      exact settled.1
    by_cases old : name ∈ h.names
    · have earlier : h.Settled name := inv name old fun original => by
        have := visited original
        simpa [same] using this
      rwa [Settled, turn.bodies_visit_of_ne old same]
    · exact settled.2 name named (by rwa [names_expandVisited])
  intro name named
  exact run.2 name named id

end Grammar

end Predictive
