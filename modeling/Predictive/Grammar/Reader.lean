import Predictive.Grammar.Basic
import Predictive.Grammar.ParseError
import Predictive.Text.Blank
import Predictive.Text.Pieces

set_option autoImplicit false

namespace Predictive

open Text

/-- A line that gives alternatives to a head. -/
structure RuleLine where
  line : Nat
  head : Symbol
  right : List Char

namespace RuleLine

/-- Reads a line that is not blank; `previous` is the head of the line above it. -/
def read (previous : Option Symbol) (line : Nat) (text : List Char) :
    Except ParseError RuleLine :=
  match arrowPieces text with
  | [left, right] =>
    match words left with
    | [] => .error (.emptyLeft line)
    | [word] =>
      let head := String.ofList word
      if head = epsilon ∨ head = endMark then .error (.reservedSymbol line head)
      else .ok ⟨line, head, right⟩
    | _ => .error (.leftContainsWhitespace line)
  | [_] =>
    match text.dropWhile isBlank, previous with
    | '|' :: right, some head => .ok ⟨line, head, right⟩
    | '|' :: _, none => .error (.noPreviousLeft line)
    | _, _ => .error (.missingArrow line)
  | _ => .error (.tooManyArrows line)

/-- Reads the lines of a text, the first of which has number `line`. -/
def readAll (previous : Option Symbol) (line : Nat) :
    List (List Char) → Except ParseError (List RuleLine)
  | [] => .ok []
  | text :: rest =>
    if text.all isBlank then readAll previous (line + 1) rest
    else do
      let rule ← read previous line text
      let rules ← readAll (some rule.head) (line + 1) rest
      return rule :: rules

/-- The symbols of one alternative. -/
def readAlternative (line : Nat) (text : List Char) : Except ParseError (List Symbol) :=
  let symbols := (words text).map String.ofList
  if symbols.isEmpty then .error (.emptyAlternative line)
  else if endMark ∈ symbols then .error (.reservedSymbol line endMark)
  else .ok symbols

/-- The alternatives of a line, each with the head of the line. -/
def alternatives (rule : RuleLine) : Except ParseError (List (Symbol × List Symbol)) :=
  (pieces '|' rule.right).mapM fun text => do
    let symbols ← readAlternative rule.line text
    return (rule.head, symbols)

end RuleLine

namespace Grammar

/-- The normal forms of the alternatives of a head. -/
def bodiesOf (alternatives : List (Symbol × List Symbol)) (head : Symbol) : OrderedSet Body :=
  .ofList ((alternatives.filter fun a => decide (a.1 = head)).map fun a => Body.normalize a.2)

/-- The grammar of some alternatives: the heads are its non-terminals, and every other symbol but
`&` is a terminal. -/
def ofAlternatives (start : Symbol) (alternatives : List (Symbol × List Symbol)) : Grammar :=
  let heads := OrderedSet.ofList (alternatives.map Prod.fst)
  let isTerminal := fun s => !decide (s = epsilon) && !decide (s ∈ heads)
  { start
    nonTerminals := .tabulate heads fun head =>
      .ofProductions head (bodiesOf alternatives head)
    terminals := .ofList ((alternatives.flatMap Prod.snd).filter isTerminal)
    firstFollowValid := false }

/-- Reads the text of a grammar. The head of the first line is the start symbol. -/
def parse (text : String) : Except ParseError Grammar := do
  let rules ← RuleLine.readAll none 1 (pieces '\n' text.toList)
  match rules with
  | [] => throw .empty
  | first :: _ =>
    let alternatives ← rules.mapM RuleLine.alternatives
    return ofAlternatives first.head alternatives.flatten

end Grammar

end Predictive
