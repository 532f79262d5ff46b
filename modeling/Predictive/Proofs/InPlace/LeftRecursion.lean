import Predictive.Proofs.Factoring.Prefix
import Predictive.Proofs.InPlace.Edits
import Predictive.Proofs.LeftRecursion.Visit

set_option autoImplicit false

namespace Predictive

namespace Grammar

namespace InPlace

/-- Expands the bodies of `head` that begin with `earlier`, one after another. -/
def expandLeading (g : Grammar) (head earlier : Symbol) : Except Fault Grammar := do
  let bodies ← g.productions head
  let leading := bodies.toList.filter (Body.startsWith earlier)
  if leading.isEmpty then return g
  else
    let fronts ← g.productions earlier
    leading.foldlM (fun g b => substitute head g b (expandFront fronts.toList b)) g

/-- Puts `fresh` behind the bodies of `direct`, and gives `fresh` what follows `head` in those of
`looping`. -/
def loopThrough (g : Grammar) (head fresh : Symbol) (direct looping : List Body) :
    Except Fault Grammar := do
  let g ← direct.foldlM (fun g b => substitute head g b [Body.join b [fresh]]) (register fresh g)
  let g ← looping.foldlM (fun g b => addBody fresh (Body.join b.tail [fresh]) g) g
  addBody fresh [epsilon] g

/-- Takes the bodies that begin with `head` away, if there are others, and brings back what follows
`head` in them under a fresh name. -/
def removeImmediate (g : Grammar) (head : Symbol) : Except Fault Grammar := do
  let recursive ← g.hasImmediateLeftRecursion head
  if recursive then
    let bodies ← g.productions head
    let looping := bodies.toList.filter (Body.startsWith head)
    let direct := bodies.toList.filter fun b => !Body.startsWith head b
    if direct.isEmpty then return g
    else
      let trimmed := looping.foldl (fun g b => dropBody head b g) g
      let looping := looping.filter fun b => decide (1 < b.length)
      if looping.isEmpty then return trimmed
      else loopThrough trimmed head (trimmed.freshName head) direct looping
  else return g

/-- Visits the non-terminals of a list after those of `visited`. -/
def eliminateFrom (visited : List Symbol) : List Symbol → Grammar → Except Fault Grammar
  | [], g => return g
  | head :: rest, g => do
    let expanded ← visited.foldlM (fun g earlier => expandLeading g head earlier) g
    let removed ← removeImmediate expanded head
    eliminateFrom (visited ++ [head]) rest removed

def eliminateLeftRecursion (g : Grammar) : Except Fault Grammar := eliminateFrom [] g.names g

variable {g : Grammar} {head earlier fresh : Symbol} {visited rest : List Symbol}

theorem expandLeading_eq (known : head ∈ g.names) (known' : earlier ∈ g.names) :
    expandLeading g head earlier = .ok (g.expandLeading head earlier) := by
  have unfolded : expandLeading g head earlier =
      if (g.bodiesStarting head earlier).isEmpty then .ok g
      else (g.bodiesStarting head earlier).foldlM
        (fun h b => substitute head h b (expandFront (g.bodies earlier).toList b)) g := by
    rw [expandLeading, productions_eq known, productions_eq known']
    rfl
  rw [unfolded, Grammar.expandLeading]
  cases g.bodiesStarting head earlier with
  | nil => rfl
  | cons c chosen => exact foldlM_substitute known _ c chosen

theorem loopThrough_eq (known : head ∈ g.names) (free : fresh ∉ g.names) {direct : OrderedSet Body}
    (some : direct.isEmpty = false) (looping : List Body) :
    loopThrough (g.setBodies head direct) head fresh direct.toList looping =
      .ok (g.loopThrough head fresh direct (looping.map List.tail)) := by
  have apart : head ≠ fresh := fun same => free (same ▸ known)
  have named : head ∈ ((g.setBodies head direct).addNonTerminal fresh ∅).names :=
    mem_names_addNonTerminal.2 (.inr (by rwa [names_setBodies]))
  have present : ((g.setBodies head direct).addNonTerminal fresh ∅).bodies head = direct := by
    rw [bodies_setBodies_addNonTerminal known, if_neg apart, if_pos rfl]
  have continued : direct.toList.foldlM (fun h b => substitute head h b [Body.join b [fresh]])
      (register fresh (g.setBodies head direct)) =
      .ok ((g.setBodies head
        (replaceBodies direct direct.toList fun b => [Body.join b [fresh]])).addNonTerminal
          fresh ∅) := by
    rw [register_eq (by rwa [names_setBodies])]
    cases listed : direct.toList with
    | nil => simp [OrderedSet.isEmpty, listed] at some
    | cons c chosen =>
        rw [foldlM_substitute named, present, setBodies_addNonTerminal apart, setBodies_setBodies]
  have looped (h : Grammar) : looping.foldlM
      (fun h b => addBody fresh (Body.join b.tail [fresh]) h) (h.addNonTerminal fresh ∅) =
      .ok (h.addNonTerminal fresh
        (.ofList ((looping.map List.tail).map fun tail => Body.join tail [fresh]))) := by
    have added := foldlM_addBody (g := h.addNonTerminal fresh ∅)
      (mem_names_addNonTerminal.2 (.inl rfl)) ∅
      ((looping.map List.tail).map fun tail => Body.join tail [fresh])
    rw [addNonTerminal_setBodies, addNonTerminal_setBodies, List.foldlM_map, List.foldlM_map] at added
    exact added
  rw [loopThrough, continued]
  show (looping.foldlM _ _ >>= addBody fresh [epsilon]) = _
  rw [looped]
  show addBody fresh [epsilon] _ = _
  rw [addBody_eq (mem_names_addNonTerminal.2 (.inl rfl)), bodies_addNonTerminal, if_pos rfl,
    addNonTerminal_setBodies, Grammar.loopThrough]
  congr 2
  ext b
  simp only [OrderedSet.mem_insert, OrderedSet.mem_ofList, List.mem_cons]

theorem foldl_erase_bodiesStarting (g : Grammar) (head : Symbol) :
    (g.bodiesStarting head head).foldl OrderedSet.erase (g.bodies head) = g.directBodies head := by
  ext b
  rw [mem_foldl_erase, mem_bodiesStarting, mem_directBodies]
  tauto

theorem removeImmediate_eq (known : head ∈ g.names) :
    removeImmediate g head = .ok (g.removeImmediate head) := by
  have unfolded : removeImmediate g head =
      if (g.bodies head).toList.any (Body.startsWith head) then
        if (g.directBodies head).isEmpty then .ok g
        else
          let trimmed := (g.bodiesStarting head head).foldl (fun g b => dropBody head b g) g
          let looping := (g.bodiesStarting head head).filter fun b => decide (1 < b.length)
          if looping.isEmpty then .ok trimmed
          else loopThrough trimmed head (trimmed.freshName head) (g.directBodies head).toList looping
      else .ok g := by
    rw [removeImmediate, hasImmediateLeftRecursion, productions_eq known]
    rfl
  have begins : (g.bodies head).toList.any (Body.startsWith head) =
      !(g.bodiesStarting head head).isEmpty := by
    rw [Bool.eq_iff_iff]
    simp [bodiesStarting]
  rw [unfolded, begins, Grammar.removeImmediate]
  cases leading : g.bodiesStarting head head with
  | nil => rfl
  | cons c chosen =>
      cases none : (g.directBodies head).isEmpty with
      | true => rfl
      | false =>
        have trimmed : (c :: chosen).foldl (fun g b => dropBody head b g) g =
            g.setBodies head (g.directBodies head) := by
          rw [foldl_dropBody known, ← leading, foldl_erase_bodiesStarting]
        have tails : g.recursiveTails head =
            ((c :: chosen).filter fun b => decide (1 < b.length)).map List.tail := by
          rw [recursiveTails, leading]
        have fresh : (g.setBodies head (g.directBodies head)).freshName head = g.freshName head :=
          freshName_congr (allSymbols_setBodies g head _) head
        have free : g.freshName head ∉ g.names := fun named =>
          g.freshName_not_mem_allSymbols head (mem_allSymbols.2 (.inl named))
        simp only [trimmed, tails, fresh, List.isEmpty_map]
        cases long : ((c :: chosen).filter fun b => decide (1 < b.length)).isEmpty with
        | true => rfl
        | false => exact loopThrough_eq known free none _

theorem mem_names_removeImmediate {name : Symbol} (named : name ∈ g.names) :
    name ∈ (g.removeImmediate head).names := by
  unfold Grammar.removeImmediate
  split
  · exact named
  · split
    · rwa [names_setBodies]
    · rw [Grammar.loopThrough, mem_names_addNonTerminal, names_setBodies]
      exact .inr named

theorem foldlM_expandLeading (known : head ∈ g.names) (others : ∀ name ∈ visited, name ∈ g.names) :
    visited.foldlM (fun g earlier => expandLeading g head earlier) g =
      .ok (g.expandVisited visited head) := by
  refine foldlM_eq_ok_foldl (I := fun h => h.names = g.names) (fun h same earlier among => ?_) rfl
  refine ⟨expandLeading_eq (same ▸ known) (same ▸ others earlier among), ?_⟩
  rw [names_expandLeading, same]

theorem eliminateFrom_eq (known : ∀ name ∈ rest, name ∈ g.names)
    (before : ∀ name ∈ visited, name ∈ g.names) :
    eliminateFrom visited rest g = .ok (Grammar.eliminateFrom visited rest g) := by
  induction rest generalizing g visited with
  | nil => rfl
  | cons head rest ih =>
      obtain ⟨named, later⟩ := List.forall_mem_cons.1 known
      have kept {name : Symbol} (old : name ∈ g.names) :
          name ∈ ((g.expandVisited visited head).removeImmediate head).names := by
        apply mem_names_removeImmediate
        rwa [names_expandVisited]
      have named' : head ∈ (g.expandVisited visited head).names := by rwa [names_expandVisited]
      rw [eliminateFrom, foldlM_expandLeading named before]
      show (removeImmediate (g.expandVisited visited head) head >>= _) = _
      rw [removeImmediate_eq named', eliminateFrom_cons]
      refine ih (fun name inside => kept (later name inside)) fun name inside => ?_
      rcases List.mem_append.1 inside with earlier | last
      · exact kept (before name earlier)
      · rw [List.mem_singleton.1 last]
        exact kept named

theorem eliminateLeftRecursion_eq (g : Grammar) :
    eliminateLeftRecursion g = .ok g.eliminateLeftRecursion :=
  eliminateFrom_eq (fun _ named => named) (by simp)

/-- For a name that is no non-terminal the pass fails before it has changed anything. -/
theorem removeImmediate_eq_eliminateImmediate (g : Grammar) (head : Symbol) :
    removeImmediate g head = g.eliminateImmediateLeftRecursion head := by
  by_cases known : head ∈ g.names
  · rw [removeImmediate_eq known, eliminateImmediateLeftRecursion, productions_eq known]
    rfl
  · have unknown : g.productions head = .error (.unknownHead head) := by
      rw [productions, OrderedMap.get?_eq_none_iff.2 known]
    rw [removeImmediate, hasImmediateLeftRecursion, eliminateImmediateLeftRecursion, unknown]
    rfl

end InPlace

end Grammar

end Predictive
