import Predictive.Proofs.Grammar.Reachable
import Predictive.Proofs.LeftRecursion.Visit

set_option autoImplicit false

namespace Predictive

namespace Grammar

/-- The terminals are those of `g`, and every non-terminal is one of `g` with primes behind it,
perhaps with none. -/
structure Stems (g g' : Grammar) : Prop where
  terminals : g'.terminals = g.terminals
  names : ∀ s ∈ g'.names, ∃ name ∈ g.names, ∃ count, s = primed name count

variable {g g' : Grammar} {head fresh : Symbol}

theorem primed_zero (name : Symbol) : primed name 0 = name := by
  simp [primed]

theorem primed_primed (name : Symbol) (count more : Nat) :
    primed (primed name count) more = primed name (count + more) := by
  apply String.toList_injective
  rw [toList_primed, toList_primed, toList_primed, List.append_assoc, List.replicate_append_replicate]

namespace Stems

theorem of_names_eq (terminals : g'.terminals = g.terminals) (names : g'.names = g.names) :
    g.Stems g' where
  terminals := terminals
  names s named := ⟨s, names ▸ named, 0, (primed_zero s).symm⟩

theorem refl (g : Grammar) : g.Stems g := of_names_eq rfl rfl

theorem trans {g'' : Grammar} (first : g.Stems g') (second : g'.Stems g'') : g.Stems g'' where
  terminals := second.terminals.trans first.terminals
  names s named := by
    obtain ⟨name, named', more, rfl⟩ := second.names s named
    obtain ⟨origin, old, count, rfl⟩ := first.names name named'
    exact ⟨origin, old, count + more, primed_primed origin count more⟩

theorem of_introduces (introduces : g.Introduces g' head (g.freshName head)) : g.Stems g' where
  terminals := introduces.terminals
  names s named := by
    rcases (introduces.names s).1 named with rfl | old
    · obtain ⟨count, same, -⟩ := g.freshName_spec head
      exact ⟨head, introduces.known, count + 1, same⟩
    · exact ⟨s, old, 0, (primed_zero s).symm⟩

end Stems

theorem stems_removeImmediate (known : head ∈ g.names) : g.Stems (g.removeImmediate head) := by
  unfold removeImmediate
  split
  case isTrue => exact .refl g
  case isFalse =>
    split
    case isTrue => exact .of_names_eq rfl (names_setBodies g head _)
    case isFalse => exact .of_introduces (introduces_freshName known _ _)

theorem stems_eliminateLeftRecursion (valid : g.WellFormed) : g.Stems g.eliminateLeftRecursion := by
  refine (eliminateLeftRecursion_induction (I := fun _ h => g.Stems h) valid (.refl g) ?_).2
  intro before head h turn stems
  have expanded := turn.preserves_expandVisited
  have same : h.Stems (h.expandVisited before head) :=
    .of_names_eq expanded.terminals names_expandVisited
  have visited := stems_removeImmediate (expanded.names head turn.known)
  exact stems.trans (same.trans visited)

theorem stems_factor (known : head ∈ g.names) : g.Stems (g.factor head) := by
  unfold factor
  split
  case isTrue => exact .refl g
  case isFalse => exact .of_introduces (introduces_freshName known _ _)

theorem stems_leftFactor (valid : g.WellFormed) : g.Stems g.leftFactor := by
  obtain ⟨inlined, names⟩ := inlineCollisions_induction (I := fun h => h.names = g.names)
    (fun h head inlined _ _ _ _ same => names_inline.trans same) valid rfl
  have first : g.Stems g.inlineCollisions := .of_names_eq inlined.terminals names
  have run : g.inlineCollisions.Rewrites g.leftFactor ∧ g.inlineCollisions.Stems g.leftFactor := by
    refine List.foldlRecOn (motive := fun h => g.inlineCollisions.Rewrites h ∧
      g.inlineCollisions.Stems h) _ _ ⟨.refl inlined.wellFormed, .refl _⟩ fun h kept name named => ?_
    obtain ⟨rewrites, stems⟩ := kept
    have known := rewrites.names name named
    exact ⟨rewrites.trans (rewrites_factor rewrites.wellFormed known),
      stems.trans (stems_factor known)⟩
  exact first.trans run.2

theorem SameRules.stems (same : g.SameRules g') : g.Stems g' :=
  .of_names_eq same.terminals same.names

/-- A reachable grammar was read from a text, and its symbols stem from those of the text. -/
theorem Reachable.exists_origin (reachable : g.Reachable) :
    ∃ text origin, Grammar.parse text = .ok origin ∧ origin.Stems g := by
  have passes {g g' : Grammar} (stems : g.Stems g') :
      (∃ text origin, Grammar.parse text = .ok origin ∧ origin.Stems g) →
        ∃ text origin, Grammar.parse text = .ok origin ∧ origin.Stems g' := by
    intro found
    obtain ⟨text, origin, read, before⟩ := found
    exact ⟨text, origin, read, before.trans stems⟩
  induction reachable with
  | parse read => exact ⟨_, _, read, .refl _⟩
  | eliminateLeftRecursion before ih =>
      exact passes (stems_eliminateLeftRecursion before.wellFormed) ih
  | eliminateImmediateLeftRecursion before done ih =>
      obtain ⟨known, rfl⟩ := eliminateImmediateLeftRecursion_eq_ok_iff.1 done
      exact passes (stems_removeImmediate known) ih
  | leftFactor before ih => exact passes (stems_leftFactor before.wellFormed) ih
  | convert before done ih =>
      obtain ⟨g', done', same, -, -⟩ := exists_convert before.wellFormed
      obtain rfl := Except.ok.inj (done.symm.trans done')
      have eliminated := (preserves_eliminateLeftRecursion before.wellFormed).wellFormed
      have factored := (stems_leftFactor eliminated).trans same.stems
      exact passes ((stems_eliminateLeftRecursion before.wellFormed).trans factored) ih
  | computeFirstFollow before done ih =>
      exact passes (current_of_computeFirstFollow before.wellFormed done).1.stems ih
  | resetFirstFollow before ih => exact passes (sameRules_resetFirstFollow _).stems ih

end Grammar

end Predictive
