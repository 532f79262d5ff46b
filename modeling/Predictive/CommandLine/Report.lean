import Predictive.CommandLine.Options
import Predictive.Summary

set_option autoImplicit false

namespace Predictive.CommandLine

/-- Why the text of the grammar could not be had. -/
inductive ReadFault where
  | notFound
  | isDirectory
  | notUtf8
  | other (description : String)
deriving DecidableEq

def ReadFault.message : ReadFault → String
  | notFound => "No such file or directory (os error 2)"
  | isDirectory => "Is a directory (os error 21)"
  | notUtf8 => "stream did not contain valid UTF-8"
  | other description => description

/-- The texts on the two output streams and the exit code. -/
structure Report where
  stdout : String
  stderr : String
  code : UInt8
deriving DecidableEq

/-- The name and number that the program gives as its version. -/
def versionLine : String := "ll1-converter 0.1.0\n"

/-- A failure before there is a grammar. -/
def failure (reason : String) : Report := ⟨"", "error: " ++ reason ++ "\n", 1⟩

/-- Applies a pass. -/
def Action.apply (g : Grammar) : Action → Except Fault Grammar
  | .eliminateLeftRecursion => .ok g.eliminateLeftRecursion
  | .leftFactor => .ok g.leftFactor
  | .convert => g.convert

/-- The warning about a cell with several bodies. -/
def conflictWarning (c : ParseTable.Conflict) : String :=
  "warning: not LL(1), cell (" ++ c.head ++ ", " ++ c.terminal ++ ") has "
    ++ c.bodies.length.repr ++ " productions\n"

/-- Adds a result to the report, for a table after its warnings. -/
def Report.addOutput (format : Format) (g : Grammar) (report : Report) :
    Output → Except Fault Report
  | .productions => .ok { report with stdout := report.stdout ++ g.showProductions format ++ "\n" }
  | .firstFollow => .ok { report with stdout := report.stdout ++ g.showFirstFollow format ++ "\n" }
  | .table => do
    let table ← g.buildTable
    let warnings := "".intercalate (table.conflicts.map conflictWarning)
    return { report with
      stdout := report.stdout ++ table.render format ++ "\n"
      stderr := report.stderr ++ warnings }

/-- Adds the verdict on some tokens; a rejection ends with exit code 2. -/
def Report.addVerdict (g : Grammar) (report : Report) (tokens : String) : Except Fault Report := do
  let table ← g.buildTable
  let warning :=
    if table.isLL1 then "" else "warning: the grammar is not LL(1), the result is unreliable\n"
  let stderr := report.stderr ++ warning
  if table.recognizes g.start (Summary.tokens tokens) then
    return { report with stdout := report.stdout ++ "accept\n", stderr }
  else
    return ⟨report.stdout ++ "reject\n", stderr, 2⟩

/-- Does what the options ask for with the text of a grammar. -/
def respond (options : Options) (text : String) : Except Fault Report :=
  match Grammar.parse text with
  | .error fault => .ok (failure fault.message)
  | .ok g => do
    let transformed ← options.actions.foldlM Action.apply g
    let current ← transformed.withFirstFollow
    let format := options.format.getD .plain
    let written ← options.outputs.foldlM (Report.addOutput format current) ⟨"", "", 0⟩
    match options.tokens with
    | some tokens => written.addVerdict current tokens
    | none => return written

/-- The report for what reading the grammar gave. -/
def report (options : Options) (source : Except ReadFault String) : Except Fault Report :=
  match source with
  | .error fault => .ok (failure ("failed to read grammar: " ++ fault.message))
  | .ok text => respond options text

end Predictive.CommandLine
