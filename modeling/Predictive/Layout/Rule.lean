import Predictive.Body
import Predictive.Json
import Predictive.Text.Padding
import Predictive.Text.Tex

set_option autoImplicit false

namespace Predictive

structure Rule where
  head : Symbol
  bodies : List Body
deriving DecidableEq

namespace Layout

/-- A symbol in LaTeX: terminals are set upright. -/
def latexSymbol (escape : String → String) (terminals : List Symbol) (s : Symbol) : String :=
  if s = epsilon then "\\epsilon"
  else if s ∈ terminals then "\\text\x7b" ++ escape s ++ "\x7d"
  else escape s

end Layout

namespace Rule

open Layout

/-- Plain text with the head in a column of `width`. Further alternatives stand on lines of their
own or behind the first one. -/
def plain (rule : Rule) (width : Nat) (multiline : Bool) : String :=
  match rule.bodies.map " ".intercalate with
  | [] => ""
  | first :: others =>
    let opening := Text.padLeft width rule.head ++ " -> " ++ first
    if multiline then
      "\n".intercalate (opening :: others.map (Text.padLeft width "" ++ "  | " ++ ·))
    else opening ++ "".intercalate (others.map (" | " ++ ·))

/-- LaTeX, with the arrow in a column of its own if the rule is a row of an array. -/
def latex (rule : Rule) (asRow : Bool) (terminals : List Symbol)
    (escape : String → String := Text.Tex.escape) : String :=
  if rule.bodies.isEmpty then ""
  else
    let arrow := if asRow then " & \\rightarrow &" else " \\rightarrow "
    let body := fun b : Body => " \\ ".intercalate (b.map (latexSymbol escape terminals))
    escape rule.head ++ arrow ++ " \\mid ".intercalate (rule.bodies.map body)

end Rule

namespace Layout

/-- A list of texts in JSON. -/
def jsonStrings (texts : List String) : Json := .array (texts.map .string)

def jsonBodies (bodies : List Body) : Json := .array (bodies.map jsonStrings)

end Layout

def Rule.json (rule : Rule) : Json :=
  .object [("left", .string rule.head), ("rights", Layout.jsonBodies rule.bodies)]

end Predictive
