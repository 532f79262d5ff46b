import Predictive.Body
import Predictive.Body.CommonPrefix
import Predictive.Collection.OrderedMap
import Predictive.Collection.OrderedSet
import Predictive.CommandLine.Options
import Predictive.CommandLine.Report
import Predictive.Grammar.Basic
import Predictive.Grammar.Conversion
import Predictive.Grammar.Derivation
import Predictive.Grammar.Factoring
import Predictive.Grammar.First
import Predictive.Grammar.Follow
import Predictive.Grammar.LeftRecursion
import Predictive.Grammar.ParseError
import Predictive.Grammar.Reader
import Predictive.Json
import Predictive.Layout.FirstFollow
import Predictive.Layout.Format
import Predictive.Layout.Productions
import Predictive.Layout.Rule
import Predictive.Layout.Table
import Predictive.Main
import Predictive.ParseTable
import Predictive.ParseTable.Predict
import Predictive.Proofs.Body.CommonPrefix
import Predictive.Proofs.Collection.Size
import Predictive.Proofs.Collection.Traversal
import Predictive.Proofs.CommandLine.Report
import Predictive.Proofs.Derivation.Corners
import Predictive.Proofs.Derivation.Interpretation
import Predictive.Proofs.Derivation.Introduction
import Predictive.Proofs.Derivation.Language
import Predictive.Proofs.Derivation.Leftmost
import Predictive.Proofs.Derivation.Opening
import Predictive.Proofs.Derivation.Productivity
import Predictive.Proofs.Derivation.Unfolding
import Predictive.Proofs.Factoring.Alternatives
import Predictive.Proofs.Factoring.Inlining
import Predictive.Proofs.Factoring.Languages
import Predictive.Proofs.Factoring.Prefix
import Predictive.Proofs.Factoring.Rounds
import Predictive.Proofs.FirstFollow.Begins
import Predictive.Proofs.FirstFollow.Computed
import Predictive.Proofs.FirstFollow.Concatenation
import Predictive.Proofs.FirstFollow.Exactness
import Predictive.Proofs.FirstFollow.First
import Predictive.Proofs.FirstFollow.Follow
import Predictive.Proofs.FirstFollow.Following
import Predictive.Proofs.FirstFollow.Iteration
import Predictive.Proofs.FirstFollow.Marks
import Predictive.Proofs.FirstFollow.Neighbours
import Predictive.Proofs.FirstFollow.Stored
import Predictive.Proofs.FirstFollow.Termination
import Predictive.Proofs.Grammar.FreshName
import Predictive.Proofs.Grammar.Introduction
import Predictive.Proofs.Grammar.Naming
import Predictive.Proofs.Grammar.Passes
import Predictive.Proofs.Grammar.Reachable
import Predictive.Proofs.Grammar.Reading
import Predictive.Proofs.Grammar.Replacement
import Predictive.Proofs.Grammar.WellFormed
import Predictive.Proofs.InPlace.Edits
import Predictive.Proofs.InPlace.Factoring
import Predictive.Proofs.InPlace.FirstFollow
import Predictive.Proofs.InPlace.LeftRecursion
import Predictive.Proofs.LeftRecursion.Ascent
import Predictive.Proofs.LeftRecursion.Elimination
import Predictive.Proofs.LeftRecursion.Immediate
import Predictive.Proofs.LeftRecursion.Languages
import Predictive.Proofs.LeftRecursion.Layers
import Predictive.Proofs.LeftRecursion.Removal
import Predictive.Proofs.LeftRecursion.Visit
import Predictive.Proofs.ParseTable.Cells
import Predictive.Proofs.ParseTable.Determined
import Predictive.Proofs.ParseTable.Exactness
import Predictive.Proofs.ParseTable.Tabulation
import Predictive.Proofs.ParseTable.Writing
import Predictive.Proofs.Pipeline
import Predictive.Proofs.Prediction.Conversion
import Predictive.Proofs.Prediction.Deterministic
import Predictive.Proofs.Prediction.Factoring
import Predictive.Proofs.Prediction.LeftRecursion
import Predictive.Proofs.Prediction.Parting
import Predictive.Proofs.Prediction.Unambiguous
import Predictive.Proofs.Prediction.Unfolding
import Predictive.Proofs.Prediction.Verdict
import Predictive.Proofs.Reader.Exactness
import Predictive.Proofs.Reader.Format
import Predictive.Proofs.Reader.Lines
import Predictive.Proofs.Recognizer.Exactness
import Predictive.Proofs.Recognizer.Loop
import Predictive.Proofs.Recognizer.Sentences
import Predictive.Proofs.Recognizer.Soundness
import Predictive.Proofs.Recognizer.Tokens
import Predictive.Proofs.Text.Cutting
import Predictive.Recognizer.Guard
import Predictive.Recognizer.Machine
import Predictive.Recognizer.Run
import Predictive.Summary
import Predictive.Text.Blank
import Predictive.Text.Padding
import Predictive.Text.Pieces
import Predictive.Text.Tex
import Predictive.Proofs.Reader.Errors
import Predictive.Proofs.Grammar.Origin
import Predictive.Proofs.Reader.Legible
import Predictive.Proofs.Layout.Rules
import Predictive.Proofs.Layout.PlainLines
import Predictive.Proofs.Layout.ReadBack
import Predictive.Proofs.Json.Decoding
import Predictive.Proofs.Layout.Json
import Predictive.Proofs.Layout.Alignment
import Predictive.Proofs.Text.Latex
import Predictive.Proofs.Layout.Latex
