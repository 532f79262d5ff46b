import Predictive.Grammar.Basic
import Predictive.Layout.Format
import Predictive.Layout.Rule

set_option autoImplicit false

namespace Predictive

namespace NonTerminal

/-- Whether the non-terminal can be empty, as a word. -/
def nullableWord (entry : NonTerminal) : String := if entry.nullable then "true" else "false"

def plainRow (entry : NonTerminal) : String :=
  " | ".intercalate [entry.name, entry.nullableWord, ", ".intercalate entry.first.toList,
    ", ".intercalate entry.follow.toList]

/-- A set as the LaTeX source of its members. -/
def latexSet (escape : String → String) (marks : OrderedSet Symbol) : String :=
  let mark := fun s : Symbol => if s = epsilon then "$\\epsilon$" else escape s
  "\\ ".intercalate (marks.toList.map mark)

def latexRow (escape : String → String) (entry : NonTerminal) : String :=
  " & ".intercalate [escape entry.name, entry.nullableWord, latexSet escape entry.first,
    latexSet escape entry.follow]

def jsonRow (entry : NonTerminal) : Json :=
  .object [("name", .string entry.name), ("nullable", .bool entry.nullable),
    ("first", Layout.jsonStrings entry.first.toList),
    ("follow", Layout.jsonStrings entry.follow.toList)]

end NonTerminal

namespace Grammar

def firstFollowPlain (g : Grammar) : String :=
  "\n".intercalate (g.entries.map NonTerminal.plainRow)

def firstFollowLatex (g : Grammar) (escape : String → String) : String :=
  "\\begin\x7btabular\x7d\x7bc|c|c|c\x7d\n"
    ++ "Symbol & Nullable & First & Follow\\\\\\hline\n"
    ++ "\\\\\n ".intercalate (g.entries.map (NonTerminal.latexRow escape))
    ++ "\\\\\n\\end\x7btabular\x7d"

def firstFollowJson (g : Grammar) : Json :=
  .object [("data", .array (g.entries.map NonTerminal.jsonRow))]

def showFirstFollow (g : Grammar) (format : Format) (writers : Writers := .linked) : String :=
  match format with
  | .plain => g.firstFollowPlain
  | .latex => g.firstFollowLatex writers.escape
  | .json => writers.print g.firstFollowJson

end Grammar

end Predictive
