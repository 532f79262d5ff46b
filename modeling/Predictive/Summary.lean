import Predictive.Grammar.Conversion
import Predictive.Grammar.Reader
import Predictive.Layout.FirstFollow
import Predictive.Layout.Productions
import Predictive.Layout.Table
import Predictive.ParseTable.Predict
import Predictive.Recognizer.Run

set_option autoImplicit false

namespace Predictive

namespace Summary

/-- What is answered for a text that is no grammar. -/
def complaint (fault : ParseError) : String :=
  (Json.object [("error", .string fault.message)]).render

/-- The FIRST and FOLLOW sets of the converted grammar. -/
def firstFollow (text : String) : Except Fault String :=
  match Grammar.parse text with
  | .error fault => .ok (complaint fault)
  | .ok g => do
    let converted ← g.convert
    return converted.firstFollowJson.render

/-- The converted grammar with its table and whether that is free of conflicts. -/
def table (text : String) : Except Fault String :=
  match Grammar.parse text with
  | .error fault => .ok (complaint fault)
  | .ok g => do
    let converted ← g.convert
    let table ← converted.buildTable
    let summary := Json.object [("ll1", .bool table.isLL1),
      ("productions", converted.productionsJson), ("table", table.json)]
    return summary.sortFields.render

/-- Splits a text at white space. -/
def tokens (text : String) : List Symbol := (Text.words text.toList).map String.ofList

/-- Whether the converted grammar accepts the tokens. A text that is no grammar accepts none. -/
def recognize (text input : String) : Except Fault Bool :=
  match Grammar.parse text with
  | .error _ => .ok false
  | .ok g => do
    let converted ← g.convert
    let table ← converted.buildTable
    return table.recognizes converted.start (tokens input)

end Summary

end Predictive
