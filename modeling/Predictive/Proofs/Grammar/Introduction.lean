import Predictive.Proofs.Grammar.FreshName
import Predictive.Proofs.Grammar.WellFormed

set_option autoImplicit false

namespace Predictive

namespace Grammar

/-- `g'` differs from `g` in the bodies of `head` and in the fresh non-terminal. -/
structure Introduces (g g' : Grammar) (head fresh : Symbol) : Prop where
  named : g.Named → g'.Named
  known : head ∈ g.names
  unused : fresh ∉ g.allSymbols
  notEpsilon : fresh ≠ epsilon
  notEndMark : fresh ≠ endMark
  start : g'.start = g.start
  terminals : g'.terminals = g.terminals
  names : ∀ s, s ∈ g'.names ↔ s = fresh ∨ s ∈ g.names
  bodies : ∀ name, name ≠ head → name ≠ fresh → g'.bodies name = g.bodies name
  stale : g'.firstFollowValid = false

theorem bodies_setBodies_addNonTerminal {g : Grammar} {head fresh : Symbol} (known : head ∈ g.names)
    (bodies loops : OrderedSet Body) (name : Symbol) :
    ((g.setBodies head bodies).addNonTerminal fresh loops).bodies name =
      if name = fresh then loops else if name = head then bodies else g.bodies name := by
  rw [bodies_addNonTerminal, bodies_setBodies known]

theorem introduces_freshName {g : Grammar} {head : Symbol} (known : head ∈ g.names)
    (bodies loops : OrderedSet Body) :
    g.Introduces ((g.setBodies head bodies).addNonTerminal (g.freshName head) loops) head
      (g.freshName head) where
  named held := (held.setBodies head bodies).addNonTerminal _ loops
  known := known
  unused := g.freshName_not_mem_allSymbols head
  notEpsilon := g.freshName_ne_epsilon head
  notEndMark := g.freshName_ne_endMark head
  start := rfl
  terminals := rfl
  names s := by rw [mem_names_addNonTerminal, names_setBodies]
  bodies name notHead notFresh := by
    rw [bodies_setBodies_addNonTerminal known, if_neg notFresh, if_neg notHead]
  stale := rfl

namespace Introduces

variable {g g' : Grammar} {head fresh : Symbol}

theorem ne_fresh_of_mem (introduces : g.Introduces g' head fresh) {s : Symbol}
    (known : s ∈ g.allSymbols) : s ≠ fresh := by
  intro same
  subst same
  exact introduces.unused known

theorem apart (introduces : g.Introduces g' head fresh) : head ≠ fresh :=
  introduces.ne_fresh_of_mem (mem_allSymbols.2 (.inl introduces.known))

theorem ne_fresh (introduces : g.Introduces g' head fresh) {name : Symbol} {b : Body}
    (inside : b ∈ g.bodies name) : name ≠ fresh :=
  introduces.ne_fresh_of_mem (mem_allSymbols.2 (.inl (mem_names_of_mem_bodies inside)))

theorem mem_allSymbols_iff (introduces : g.Introduces g' head fresh) {s : Symbol} :
    s ∈ g'.allSymbols ↔ s = fresh ∨ s ∈ g.allSymbols := by
  rw [mem_allSymbols, mem_allSymbols, introduces.names, introduces.terminals, or_assoc]

theorem not_mem_symbols (introduces : g.Introduces g' head fresh) (valid : g.WellFormed)
    {name : Symbol} {b : Body} (inside : b ∈ g.bodies name) : fresh ∉ Body.symbols b :=
  fun within => introduces.unused ((valid.fits name b inside).2 fresh within)

theorem fits_join_fresh (introduces : g.Introduces g' head fresh) {b : Body}
    (old : ∀ s ∈ Body.symbols b, s ∈ g.allSymbols) : g'.Fits (Body.join b [fresh]) := by
  refine fits_join (fun s inside => introduces.mem_allSymbols_iff.2 (.inr (old s inside))) ?_
  intro s inside
  rw [List.mem_singleton.1 (Body.mem_symbols.1 inside).1]
  exact introduces.mem_allSymbols_iff.2 (.inl rfl)

theorem symbols_join_fresh (introduces : g.Introduces g' head fresh) (b : Body) :
    Body.symbols (Body.join b [fresh]) = Body.symbols b ++ [fresh] := by
  have single : Body.symbols [fresh] = [fresh] := by simp [Body.symbols, introduces.notEpsilon]
  rw [Body.symbols_join, single]

theorem rewrites (introduces : g.Introduces g' head fresh) (valid : g.WellFormed)
    (some : (∃ b, b ∈ g'.bodies head) ∧ ∃ b, b ∈ g'.bodies fresh)
    (fit : ∀ b ∈ g'.bodies head, g'.Fits b) (fitFresh : ∀ b ∈ g'.bodies fresh, g'.Fits b) :
    g.Rewrites g' where
  wellFormed :=
    { named := introduces.named valid.named
      start := by
        rw [introduces.start, introduces.names]
        exact .inr valid.start
      disjoint := fun s named terminal => by
        rw [introduces.terminals] at terminal
        rcases (introduces.names s).1 named with rfl | old
        · exact introduces.unused (mem_allSymbols.2 (.inr terminal))
        · exact valid.disjoint s old terminal
      noEpsilon := fun inside => by
        rcases introduces.mem_allSymbols_iff.1 inside with same | old
        · exact introduces.notEpsilon same.symm
        · exact valid.noEpsilon old
      noEndMark := fun inside => by
        rcases introduces.mem_allSymbols_iff.1 inside with same | old
        · exact introduces.notEndMark same.symm
        · exact valid.noEndMark old
      inhabited := fun name named => by
        by_cases isFresh : name = fresh
        · exact isFresh ▸ some.2
        · by_cases isHead : name = head
          · exact isHead ▸ some.1
          · rw [introduces.bodies name isHead isFresh]
            exact valid.inhabited name (((introduces.names name).1 named).resolve_left isFresh)
      fits := fun name b inside => by
        by_cases isFresh : name = fresh
        · subst isFresh
          exact fitFresh b inside
        · by_cases isHead : name = head
          · subst isHead
            exact fit b inside
          · rw [introduces.bodies name isHead isFresh] at inside
            obtain ⟨normal, old⟩ := valid.fits name b inside
            exact ⟨normal, fun s within => introduces.mem_allSymbols_iff.2 (.inr (old s within))⟩ }
  start := introduces.start
  terminals := introduces.terminals
  names name named := (introduces.names name).2 (.inr named)
  stale := .inr introduces.stale

end Introduces

end Grammar

end Predictive
