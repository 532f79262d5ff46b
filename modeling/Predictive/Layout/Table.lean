import Predictive.Layout.Format
import Predictive.Layout.Rule
import Predictive.ParseTable

set_option autoImplicit false

namespace Predictive

namespace ParseTable

/-- A cell as a rule of its head. -/
def cell (t : ParseTable) (head terminal : Symbol) : Rule := ⟨head, t.entries head terminal⟩

/-- The texts of the plain layout: the labels, then the rows. -/
def plainGrid (t : ParseTable) : List (List String) :=
  ("" :: t.terminals) :: t.nonTerminals.map fun head =>
    head :: t.terminals.map fun terminal => (t.cell head terminal).plain head.utf8ByteSize false

/-- The length in UTF-8 of the longest text of each column. -/
def columnWidths : List (List String) → List Nat
  | [] => []
  | [line] => line.map String.utf8ByteSize
  | line :: rest => List.zipWith max (line.map String.utf8ByteSize) (columnWidths rest)

def plain (t : ParseTable) : String :=
  let widths := columnWidths t.plainGrid
  "\n".intercalate
    (t.plainGrid.map fun line => " | ".intercalate (List.zipWith Text.padLeft widths line))

/-- A cell in LaTeX, a conflict in red. -/
def latexCell (t : ParseTable) (escape : String → String) (head terminal : Symbol) : String :=
  let text := (t.cell head terminal).latex false t.terminals escape
  if 1 < (t.entries head terminal).length then "\x7b\\color\x7bred\x7d" ++ text ++ "\x7d" else text

def latexRow (t : ParseTable) (escape : String → String) (head : Symbol) : String :=
  " & ".intercalate (escape head :: t.terminals.map (t.latexCell escape head))

def latex (t : ParseTable) (escape : String → String) : String :=
  let columns := "".intercalate (t.terminals.map fun _ => "|l")
  let opening := "\\[\\begin\x7barray\x7d\x7bc" ++ columns ++ "\x7d\n"
  let label := fun s : Symbol => "\\text\x7b" ++ escape s ++ "\x7d"
  " & ".intercalate (opening :: t.terminals.map label) ++ "\\\\\\hline\n"
    ++ "\\\\\n".intercalate (t.nonTerminals.map (t.latexRow escape))
    ++ "\n\\end\x7barray\x7d\\]"

def json (t : ParseTable) : Json :=
  let row := fun cells : OrderedMap Symbol (List Body) =>
    Json.object (cells.toList.map fun cell => (cell.1, Layout.jsonBodies cell.2))
  .object [("terminals", Layout.jsonStrings t.terminals),
    ("rows", .object (t.rows.toList.map fun entry => (entry.1, row entry.2)))]

def render (t : ParseTable) (format : Format) (writers : Writers := .linked) : String :=
  match format with
  | .plain => t.plain
  | .latex => t.latex writers.escape
  | .json => writers.print t.json

end ParseTable

end Predictive
