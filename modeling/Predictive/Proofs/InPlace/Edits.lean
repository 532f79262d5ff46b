import Predictive.Proofs.Collection.Traversal
import Predictive.Proofs.Grammar.Introduction
import Predictive.Proofs.Grammar.Replacement

set_option autoImplicit false

namespace Predictive

variable {ε σ α : Type}

theorem foldlM_eq_ok_foldl {f : σ → α → Except ε σ} {step : σ → α → σ} {I : σ → Prop} {l : List α}
    {s : σ} (each : ∀ s, I s → ∀ x ∈ l, f s x = .ok (step s x) ∧ I (step s x)) (start : I s) :
    l.foldlM f s = .ok (l.foldl step s) := by
  induction l generalizing s with
  | nil => rfl
  | cons x l ih =>
      obtain ⟨first, kept⟩ := each s start x List.mem_cons_self
      rw [List.foldlM_cons, List.foldl_cons, first]
      exact ih (fun s inv y inside => each s inv y (List.mem_cons_of_mem x inside)) kept

namespace Grammar

variable {g : Grammar} {head fresh name : Symbol}

theorem productions_eq (known : head ∈ g.names) : g.productions head = .ok (g.bodies head) := by
  rw [productions, bodies]
  cases found : g.nonTerminals.get? head with
  | none => exact absurd known (OrderedMap.get?_eq_none_iff.1 found)
  | some entry => rfl

theorem eq_of_get? {h : Grammar} (start : h.start = g.start) (terminals : h.terminals = g.terminals)
    (flag : h.firstFollowValid = g.firstFollowValid)
    (entries : ∀ name, h.nonTerminals.get? name = g.nonTerminals.get? name) : h = g := by
  have same : h.nonTerminals = g.nonTerminals := OrderedMap.ext entries
  cases g
  cases h
  simp only at start terminals flag same
  rw [start, terminals, flag, same]

@[simp] theorem setBodies_setBodies (g : Grammar) (head : Symbol) (bodies later : OrderedSet Body) :
    (g.setBodies head bodies).setBodies head later = g.setBodies head later := by
  refine eq_of_get? rfl rfl rfl fun name => ?_
  simp only [setBodies, OrderedMap.get?_modify]
  split
  · cases g.nonTerminals.get? name <;> rfl
  · rfl

/-- Bodies are set for an old non-terminal as well before as after a new one is added. -/
theorem setBodies_addNonTerminal (apart : head ≠ fresh) (bodies loops : OrderedSet Body) :
    (g.addNonTerminal fresh loops).setBodies head bodies =
      (g.setBodies head bodies).addNonTerminal fresh loops := by
  refine eq_of_get? rfl rfl rfl fun name => ?_
  simp only [setBodies, addNonTerminal, OrderedMap.get?_modify, OrderedMap.get?_insert]
  by_cases same : name = fresh
  · have other : fresh ≠ head := apart.symm
    simp [same, other]
  · simp [same]

theorem addNonTerminal_setBodies (g : Grammar) (fresh : Symbol) (bodies later : OrderedSet Body) :
    (g.addNonTerminal fresh bodies).setBodies fresh later = g.addNonTerminal fresh later := by
  refine eq_of_get? rfl rfl rfl fun name => ?_
  simp only [setBodies, addNonTerminal, OrderedMap.get?_modify, OrderedMap.get?_insert]
  split <;> rfl

theorem names_foldl {step : Grammar → α → Grammar} (each : ∀ h x, (step h x).names = h.names)
    (l : List α) (g : Grammar) : (l.foldl step g).names = g.names := by
  induction l generalizing g with
  | nil => rfl
  | cons x l ih => rw [List.foldl_cons, ih, each]

theorem freshName_congr {h : Grammar} (same : h.allSymbols = g.allSymbols) (name : Symbol) :
    h.freshName name = g.freshName name := by
  have free : h.isFree name = g.isFree name := by
    funext count
    rw [isFree, isFree, same]
  rw [freshName, freshName, free, same]

namespace InPlace

/-- Adds a body to a non-terminal. -/
def addBody (head : Symbol) (b : Body) (g : Grammar) : Except Fault Grammar := do
  let bodies ← g.productions head
  return g.setBodies head (bodies.insert b)

/-- Takes a body from a non-terminal. Nothing is taken from a name that is none. -/
def dropBody (head : Symbol) (b : Body) (g : Grammar) : Grammar :=
  g.setBodies head ((g.bodies head).erase b)

/-- Adds a non-terminal without bodies, unless it is there. -/
def register (name : Symbol) (g : Grammar) : Grammar :=
  if g.isNonTerminal name then g else g.addNonTerminal name ∅

/-- Takes a body from a non-terminal and adds others in its place. -/
def substitute (head : Symbol) (g : Grammar) (b : Body) (others : List Body) :
    Except Fault Grammar :=
  others.foldlM (fun g other => addBody head other g) (dropBody head b g)

theorem addBody_eq (known : head ∈ g.names) (b : Body) :
    addBody head b g = .ok (g.setBodies head ((g.bodies head).insert b)) := by
  rw [addBody, productions_eq known]
  rfl

theorem foldlM_addBody (known : head ∈ g.names) (bodies : OrderedSet Body) (l : List Body) :
    l.foldlM (fun g b => addBody head b g) (g.setBodies head bodies) =
      .ok (g.setBodies head (bodies.insertMany l)) := by
  induction l generalizing bodies with
  | nil => rfl
  | cons b l ih =>
      have named : head ∈ (g.setBodies head bodies).names := by rwa [names_setBodies]
      rw [List.foldlM_cons, addBody_eq named, bodies_setBodies known, if_pos rfl,
        setBodies_setBodies]
      exact ih (bodies.insert b)

theorem substitute_eq (known : head ∈ g.names) (b : Body) (others : List Body) :
    substitute head g b others =
      .ok (g.setBodies head (((g.bodies head).erase b).insertMany others)) :=
  foldlM_addBody known _ others

/-- Replacing bodies one after another, the first of them being there, is `replaceBodies`. -/
theorem foldlM_substitute (known : head ∈ g.names) (expand : Body → List Body) (c : Body)
    (chosen : List Body) :
    (c :: chosen).foldlM (fun g b => substitute head g b (expand b)) g =
      .ok (g.setBodies head (replaceBodies (g.bodies head) (c :: chosen) expand)) := by
  induction chosen generalizing g c with
  | nil =>
      rw [List.foldlM_cons, substitute_eq known]
      rfl
  | cons d chosen ih =>
      rw [List.foldlM_cons, substitute_eq known]
      refine (ih (g := g.setBodies head _) (by rwa [names_setBodies]) d).trans ?_
      rw [bodies_setBodies known, if_pos rfl, setBodies_setBodies, ← replaceBodies_cons]

theorem foldl_dropBody (known : head ∈ g.names) (c : Body) (l : List Body) :
    (c :: l).foldl (fun g b => dropBody head b g) g =
      g.setBodies head ((c :: l).foldl OrderedSet.erase (g.bodies head)) := by
  induction l generalizing g c with
  | nil => rfl
  | cons d l ih =>
      rw [List.foldl_cons]
      refine (ih (g := dropBody head c g) (by rwa [dropBody, names_setBodies]) d).trans ?_
      rw [dropBody, bodies_setBodies known, if_pos rfl, setBodies_setBodies, ← List.foldl_cons]

theorem register_eq (free : name ∉ g.names) : register name g = g.addNonTerminal name ∅ := by
  have missing : g.isNonTerminal name = false := decide_eq_false free
  rw [register, missing]
  rfl

end InPlace

end Grammar

end Predictive
