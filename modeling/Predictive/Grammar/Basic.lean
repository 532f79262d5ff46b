import Predictive.Collection.OrderedSet
import Predictive.Collection.OrderedMap
import Predictive.Body

set_option autoImplicit false

namespace Predictive

/-- What a grammar holds about one non-terminal. -/
structure NonTerminal where
  name : Symbol := ""
  productions : OrderedSet Body
  first : OrderedSet Symbol
  follow : OrderedSet Symbol
  nullable : Bool
deriving DecidableEq

structure Grammar where
  start : Symbol
  nonTerminals : OrderedMap Symbol NonTerminal
  terminals : OrderedSet Symbol
  /-- Whether the stored FIRST and FOLLOW sets are those of the productions. -/
  firstFollowValid : Bool
deriving DecidableEq

/-- Why a grammar cannot answer. -/
inductive Fault where
  | unknownHead (name : Symbol)
  | unknownSymbol (name : Symbol)
  | missingEntry
deriving DecidableEq

def Fault.message : Fault → String
  | unknownHead name => "`" ++ name ++ "` is not a non-terminal of this grammar"
  | unknownSymbol name => "symbol `" ++ name ++ "` is neither a terminal nor a non-terminal"
  | missingEntry => "no entry found for key"

/-- A non-terminal with these productions and nothing known about it yet. -/
def NonTerminal.ofProductions (name : Symbol) (bodies : OrderedSet Body) : NonTerminal :=
  ⟨name, bodies, ∅, ∅, false⟩

/-- A head with one of its bodies. -/
abbrev Production := Symbol × Body

/-- Productions stand in the order of their heads, those of one head in the order of their bodies. -/
instance : Ord Production := lexOrd

namespace Grammar

/-- The names of the non-terminals in increasing order. -/
def names (g : Grammar) : List Symbol := g.nonTerminals.keys

/-- What is held about the non-terminals, in the order of their names. -/
def entries (g : Grammar) : List NonTerminal := g.nonTerminals.values

def isNonTerminal (g : Grammar) (name : Symbol) : Bool := decide (name ∈ g.nonTerminals)

def isTerminal (g : Grammar) (name : Symbol) : Bool := decide (name ∈ g.terminals)

/-- The bodies of `head`: none if it is no non-terminal. -/
def bodies (g : Grammar) (head : Symbol) : OrderedSet Body :=
  match g.nonTerminals.get? head with
  | some entry => entry.productions
  | none => ∅

/-- The bodies of a non-terminal. -/
def productions (g : Grammar) (head : Symbol) : Except Fault (OrderedSet Body) :=
  match g.nonTerminals.get? head with
  | some entry => .ok entry.productions
  | none => .error (.unknownHead head)

/-- All productions, under the names that the entries carry. -/
def productionSet (g : Grammar) : OrderedSet Production :=
  .ofList (g.entries.flatMap fun entry => entry.productions.toList.map fun b => (entry.name, b))

/-- All productions in increasing order. -/
def allProductions (g : Grammar) : List Production := g.productionSet.toList

def first? (g : Grammar) (name : Symbol) : Option (OrderedSet Symbol) :=
  (g.nonTerminals.get? name).map NonTerminal.first

def follow? (g : Grammar) (name : Symbol) : Option (OrderedSet Symbol) :=
  (g.nonTerminals.get? name).map NonTerminal.follow

/-- Gives a non-terminal these bodies in place of its own. -/
def setBodies (g : Grammar) (head : Symbol) (bodies : OrderedSet Body) : Grammar :=
  { g with
    nonTerminals := g.nonTerminals.modify head fun entry => { entry with productions := bodies }
    firstFollowValid := false }

/-- Adds a non-terminal with these bodies. -/
def addNonTerminal (g : Grammar) (name : Symbol) (bodies : OrderedSet Body) : Grammar :=
  { g with
    nonTerminals := g.nonTerminals.insert name (.ofProductions name bodies)
    firstFollowValid := false }

/-- Overwrites what is stored about a non-terminal, whatever it is, but for its name; the flag keeps
its value. -/
def overwrite (g : Grammar) (name : Symbol) (change : NonTerminal → NonTerminal) : Grammar :=
  { g with
    nonTerminals := g.nonTerminals.modify name fun entry =>
      { change entry with name := entry.name } }

theorem mem_names {g : Grammar} {name : Symbol} : name ∈ g.names ↔ name ∈ g.nonTerminals := Iff.rfl

@[simp] theorem names_setBodies (g : Grammar) (head : Symbol) (bodies : OrderedSet Body) :
    (g.setBodies head bodies).names = g.names :=
  OrderedMap.keys_modify g.nonTerminals head _

@[simp] theorem names_overwrite (g : Grammar) (name : Symbol) (change : NonTerminal → NonTerminal) :
    (g.overwrite name change).names = g.names :=
  OrderedMap.keys_modify g.nonTerminals name _

theorem mem_names_addNonTerminal {g : Grammar} {name other : Symbol} {bodies : OrderedSet Body} :
    other ∈ (g.addNonTerminal name bodies).names ↔ other = name ∨ other ∈ g.names :=
  OrderedMap.mem_insert

theorem bodies_setBodies {g : Grammar} {head : Symbol} (known : head ∈ g.names) (name : Symbol)
    (bodies : OrderedSet Body) :
    (g.setBodies head bodies).bodies name = if name = head then bodies else g.bodies name := by
  simp only [Grammar.bodies, setBodies, OrderedMap.get?_modify]
  by_cases same : name = head
  · subst same
    cases found : g.nonTerminals.get? name with
    | none => exact absurd known (OrderedMap.get?_eq_none_iff.1 found)
    | some entry => simp
  · simp [same]

theorem bodies_addNonTerminal (g : Grammar) (name other : Symbol) (bodies : OrderedSet Body) :
    (g.addNonTerminal name bodies).bodies other =
      if other = name then bodies else g.bodies other := by
  simp only [Grammar.bodies, addNonTerminal, OrderedMap.get?_insert]
  by_cases same : other = name
  · simp [same, NonTerminal.ofProductions]
  · simp [same]

/-- Whether a non-terminal has a body that begins with its own name. -/
def hasImmediateLeftRecursion (g : Grammar) (head : Symbol) : Except Fault Bool := do
  let bodies ← g.productions head
  return bodies.toList.any (Body.startsWith head)

/-- `name` with `count` primes. -/
def primed (name : Symbol) (count : Nat) : Symbol :=
  name ++ String.ofList (List.replicate count '\'')

/-- All terminals and non-terminals. -/
def allSymbols (g : Grammar) : List Symbol := g.names ++ g.terminals.toList

/-- Whether `name` with one prime more than `count` is no symbol of the grammar. -/
def isFree (g : Grammar) (name : Symbol) (count : Nat) : Bool :=
  !decide (primed name (count + 1) ∈ g.allSymbols)

/-- `name` with the fewest primes, at least one, that make it no symbol of the grammar. Among more
candidates than the grammar has symbols one is always free. -/
def freshName (g : Grammar) (name : Symbol) : Symbol :=
  primed name (((List.range (g.allSymbols.length + 1)).find? (g.isFree name)).getD 0 + 1)

end Grammar

end Predictive
