import Predictive.Proofs.FirstFollow.Computed
import Predictive.Proofs.InPlace.Edits

set_option autoImplicit false

namespace Predictive

theorem foldlM_congr {ε σ α : Type} {I : σ → Prop} {f step : σ → α → Except ε σ} {l : List α} {s : σ}
    (each : ∀ s, I s → ∀ x ∈ l, f s x = step s x ∧ ∀ t, step s x = .ok t → I t) (start : I s) :
    l.foldlM f s = l.foldlM step s := by
  induction l generalizing s with
  | nil => rfl
  | cons x l ih =>
      obtain ⟨same, kept⟩ := each s start x List.mem_cons_self
      rw [List.foldlM_cons, List.foldlM_cons, same]
      cases made : step s x with
      | error fault => rfl
      | ok next =>
          have later := ih (fun s inv y inside => each s inv y (List.mem_cons_of_mem x inside))
            (kept next made)
          exact later

namespace Grammar

namespace InPlace

/-- What is stored about a non-terminal. -/
def entry (g : Grammar) (name : Symbol) : Except Fault NonTerminal :=
  match g.nonTerminals.get? name with
  | some entry => .ok entry
  | none => .error (.unknownHead name)

/-- Overwrites what is stored about a non-terminal. -/
def store (name : Symbol) (change : NonTerminal → NonTerminal) (g : Grammar) :
    Except Fault Grammar := do
  let _ ← entry g name
  return g.overwrite name change

def refreshFirst (g : Grammar) (name : Symbol) : Except Fault Grammar := do
  let bodies ← g.productions name
  let first ← g.firstOfBodies bodies.toList
  let nullable := decide (epsilon ∈ first)
  store name (fun entry => { entry with first, nullable }) g

def firstPass (g : Grammar) : Except Fault Grammar := sweep names refreshFirst g

def followBody (head : Symbol) : List Symbol → Grammar → Except Fault Grammar
  | [], g => .ok g
  | s :: rest, g =>
    if g.isNonTerminal s then do
      let marks ← g.followBefore head s rest
      let extended ← store s (fun entry => { entry with follow := entry.follow ∪ marks }) g
      followBody head rest extended
    else followBody head rest g

def followPass (g : Grammar) : Except Fault Grammar :=
  sweep allProductions (fun g production => followBody production.1 production.2 g) g

def computeFirstFollow (g : Grammar) : Except Fault Grammar := do
  let reset := g.resetFirstFollow
  let withFirst ← untilStable firstPass reset.passBound reset
  let opened := withFirst.extendFollow withFirst.start {endMark}
  let withFollow ← untilStable followPass withFirst.passBound opened
  return { withFollow with firstFollowValid := true }

variable {g h : Grammar} {head name : Symbol}

theorem store_eq (known : name ∈ g.names) (change : NonTerminal → NonTerminal) :
    store name change g = .ok (g.overwrite name change) := by
  obtain ⟨e, found⟩ := exists_entry known
  rw [store, entry, found]
  rfl

theorem refreshFirst_eq (known : name ∈ g.names) : refreshFirst g name = g.refreshFirst name ∧
    ∀ t, g.refreshFirst name = .ok t → t.names = g.names := by
  constructor
  · rw [refreshFirst, Grammar.refreshFirst, productions_eq known]
    show (g.firstOfBodies (g.bodies name).toList >>= _) = _
    simp only [store_eq known]
    rfl
  · intro t done
    obtain ⟨first, -, made⟩ := bind_eq_ok_iff.1 done
    obtain rfl := pure_eq_ok_iff.1 made
    exact names_overwrite g name _

theorem firstPass_eq (g : Grammar) : firstPass g = g.firstPass := by
  refine foldlM_congr (I := fun (h : Grammar) => h.names = g.names)
    (fun h same name named => ?_) rfl
  have known : name ∈ h.names := same ▸ named
  obtain ⟨agree, kept⟩ := refreshFirst_eq known
  exact ⟨agree, fun t done => (kept t done).trans same⟩

theorem followBody_eq (head : Symbol) (rest : List Symbol) (g : Grammar) :
    followBody head rest g = Grammar.followBody head rest g := by
  induction rest generalizing g with
  | nil => rfl
  | cons s rest ih =>
      rw [followBody, Grammar.followBody]
      cases occurs : g.isNonTerminal s with
      | false => exact ih g
      | true =>
          have named : s ∈ g.names := of_decide_eq_true occurs
          simp only [if_true, store_eq named]
          cases g.followBefore head s rest with
          | error fault => rfl
          | ok marks => exact ih (g.extendFollow s marks)

theorem followPass_eq (g : Grammar) : followPass g = g.followPass := by
  have step : (fun g (production : Production) => followBody production.1 production.2 g) =
      followProduction := funext fun g => funext fun production =>
    followBody_eq production.1 production.2 g
  rw [followPass, step]
  rfl

theorem computeFirstFollow_eq (g : Grammar) : computeFirstFollow g = g.computeFirstFollow := by
  have first : firstPass = Grammar.firstPass := funext firstPass_eq
  have follow : followPass = Grammar.followPass := funext followPass_eq
  rw [computeFirstFollow, first, follow]
  rfl

end InPlace

end Grammar

end Predictive
