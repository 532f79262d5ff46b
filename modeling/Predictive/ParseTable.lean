import Predictive.Collection.OrderedMap
import Predictive.Body

set_option autoImplicit false

namespace Predictive

structure ParseTable where
  /-- The labels of the columns. -/
  terminals : List Symbol
  rows : OrderedMap Symbol (OrderedMap Symbol (List Body))
deriving DecidableEq

namespace ParseTable

/-- The heads of the rows in increasing order. -/
def nonTerminals (t : ParseTable) : List Symbol := t.rows.keys

def isNonTerminal (t : ParseTable) (name : Symbol) : Bool := decide (name ∈ t.rows)

/-- Adds a row without cells, unless there is one. -/
def addRow (t : ParseTable) (head : Symbol) : ParseTable :=
  { t with rows := t.rows.update head id }

/-- Writes a body into a cell, behind those that are there, unless it is one of them. -/
def insert (t : ParseTable) (head terminal : Symbol) (b : Body) : ParseTable :=
  { t with rows := t.rows.update head fun row => row.update terminal fun cell =>
      if b ∈ cell then cell else cell ++ [b] }

/-- Writes a body into some cells of a row, one after another. -/
def insertAll (t : ParseTable) (head : Symbol) (b : Body) (terminals : List Symbol) : ParseTable :=
  terminals.foldl (fun t terminal => t.insert head terminal b) t

/-- The bodies in a cell. -/
def entries (t : ParseTable) (head terminal : Symbol) : List Body :=
  match t.rows.get? head with
  | some row => (row.get? terminal).getD []
  | none => []

/-- The body to expand `head` with before `terminal`. -/
def get? (t : ParseTable) (head terminal : Symbol) : Option Body :=
  (t.entries head terminal).getLast?

/-- A cell with more than one body. -/
structure Conflict where
  head : Symbol
  terminal : Symbol
  bodies : List Body
deriving DecidableEq

/-- The cells with more than one body, row by row. -/
def conflicts (t : ParseTable) : List Conflict :=
  t.rows.toList.flatMap fun row =>
    (row.2.toList.filter fun cell => decide (1 < cell.2.length)).map fun cell =>
      ⟨row.1, cell.1, cell.2⟩

def isLL1 (t : ParseTable) : Bool := t.conflicts.isEmpty

end ParseTable

end Predictive
