import Predictive.Layout.Table
import Predictive.Proofs.Layout.PlainLines
import Predictive.Proofs.Text.Latex

set_option autoImplicit false

namespace Predictive

open Text Text.Tex

/-- What begins an array with these columns. -/
def arrayOpening (columns : String) : String := "\\[\\begin\x7barray\x7d\x7b" ++ columns ++ "\x7d"

/-- The line that ends an array. -/
def arrayEnd : String := "\\end\x7barray\x7d\\]"

/-- What stands behind every row of an array but the last. -/
def rowEnd : List Char := ['\\', '\\']

/-- The lines of an array with these rows. -/
def endRows : List (List Char) → List (List Char)
  | [] => []
  | [row] => [row]
  | row :: next :: rows => (row ++ rowEnd) :: endRows (next :: rows)

variable {rows : List (List Char)} {line text : List Char} {s head : Symbol}
  {terminals : List Symbol} {n : Nat} {escape : String → String}

theorem endRows_cons (row next : List Char) (rows : List (List Char)) :
    endRows (row :: next :: rows) = (row ++ rowEnd) :: endRows (next :: rows) := rfl

theorem endRows_concat (rows : List (List Char)) (last : List Char) :
    endRows (rows ++ [last]) = rows.map (· ++ rowEnd) ++ [last] := by
  induction rows with
  | nil => rfl
  | cons row rows ih =>
      obtain ⟨next, more, same⟩ : ∃ next more, rows ++ [last] = next :: more :=
        List.exists_cons_of_ne_nil (by simp)
      rw [List.cons_append, same, endRows_cons, ← same, ih]
      rfl

theorem forall₂_endRows (rows : List (List Char)) :
    List.Forall₂ (fun row line => line = row ∨ line = row ++ rowEnd) rows (endRows rows) := by
  induction rows with
  | nil => exact .nil
  | cons row rows ih =>
      cases rows with
      | nil => exact .cons (.inl rfl) .nil
      | cons next rows => exact .cons (.inr rfl) ih

theorem endRows_ne_nil_iff : endRows rows ≠ [] ↔ rows ≠ [] := by
  rw [← List.length_pos_iff, ← List.length_pos_iff, ← (forall₂_endRows rows).length_eq]

theorem intercalate_endRows (rows : List (List Char)) :
    "\\\\\n".toList.intercalate rows = ['\n'].intercalate (endRows rows) := by
  induction rows with
  | nil => rfl
  | cons row rows ih =>
      cases rows with
      | nil => simp [endRows]
      | cons next rows =>
          obtain ⟨line, lines, same⟩ : ∃ line lines, endRows (next :: rows) = line :: lines := by
            cases rows <;> exact ⟨_, _, rfl⟩
          rw [List.intercalate_cons_cons, ih, endRows_cons, same, List.intercalate_cons_cons]
          simp [rowEnd]

/-- The line is the row of this head, with so many column separators. -/
structure LatexRow (escape : String → String) (head : Symbol) (separators : Nat)
    (line : List Char) : Prop extends Sealed line separators where
  begins : (escape head).toList ++ " & ".toList <+: line

theorem LatexRow.ended (shown : LatexRow escape head n line) :
    LatexRow escape head n (line ++ rowEnd) where
  toSealed := shown.toSealed.append (by decide : Bare rowEnd 0).sealed
  begins := shown.begins.trans (List.prefix_append line rowEnd)

theorem splitOn_of_sealed {lines : List (List Char)} (same : text = ['\n'].intercalate lines)
    (some : lines ≠ []) (each : ∀ line ∈ lines, ∃ n, Sealed line n) :
    text.splitOn '\n' = lines ∧ Intact text := by
  have unbroken : ∀ line ∈ lines, '\n' ∉ line := by
    intro line inside
    obtain ⟨n, shown⟩ := each line inside
    exact shown.unbroken
  rw [same]
  exact ⟨List.splitOn_intercalate _ unbroken some, intact_lines each⟩

theorem sealed_intercalate {between : String} {parts : List String}
    (joint : Sealed between.toList n) (each : ∀ part ∈ parts, Sealed part.toList 0) :
    Sealed (between.intercalate parts).toList (n * (parts.length - 1)) := by
  rw [String.toList_intercalate, ← List.length_map String.toList]
  exact joint.intercalate (List.forall_mem_map.2 each)

theorem sealed_joined {between : String} {parts : List String}
    (joint : Sealed between.toList 0) (each : ∀ part ∈ parts, Sealed part.toList 0) :
    Sealed (between.intercalate parts).toList 0 := by
  have whole := sealed_intercalate joint each
  rwa [Nat.zero_mul] at whole

theorem sealed_escape (escapes : Escapes escape) (legible : Legible s) :
    Sealed (escape s).toList 0 := by
  have shown := escapes.sealed_ofList legible.newline_not_mem
  rwa [String.ofList_toList] at shown

theorem sealed_upright (escapes : Escapes escape) (legible : Legible s) :
    Sealed ("\\text\x7b" ++ escape s ++ "\x7d").toList 0 := by
  simpa using (by decide : Bare "\\text".toList 0).command (sealed_escape escapes legible)

theorem sealed_latexSymbol (escapes : Escapes escape) (legible : Legible s) :
    Sealed (Layout.latexSymbol escape terminals s).toList 0 := by
  unfold Layout.latexSymbol
  split
  case isTrue => exact (by decide : Bare "\\epsilon".toList 0).sealed
  case isFalse =>
    split
    case isTrue => exact sealed_upright escapes legible
    case isFalse => exact sealed_escape escapes legible

theorem sealed_arrayOpening {columns : String} (each : Sealed columns.toList 0) :
    Sealed (arrayOpening columns).toList 0 := by
  have name := (by decide : Bare "array".toList 0).sealed
  have parts := ((by decide : Bare "\\[\\begin".toList 0).command name).append each.group
  unfold arrayOpening
  simpa using parts

theorem sealed_arrayEnd : Sealed arrayEnd.toList 0 := by
  have name := (by decide : Bare "array".toList 0).sealed
  have parts := (by decide : Bare "\\end".toList 0).command name
  simpa [arrayEnd] using parts.append (by decide : Bare "\\]".toList 0).sealed

namespace Rule

variable {rule : Rule}

theorem sealed_bodies (escapes : Escapes escape) (terminals : List Symbol) {bodies : List Body}
    (each : ∀ b ∈ bodies, ∀ s ∈ b, Legible s) :
    Sealed (" \\mid ".intercalate (bodies.map fun b =>
      " \\ ".intercalate (b.map (Layout.latexSymbol escape terminals)))).toList 0 := by
  refine sealed_joined (by decide : Bare _ 0).sealed (List.forall_mem_map.2 fun b inside => ?_)
  refine sealed_joined (by decide : Bare _ 0).sealed (List.forall_mem_map.2 fun s among => ?_)
  exact sealed_latexSymbol escapes (each b inside s among)

theorem sealed_latex (escapes : Escapes escape) (legible : Legible rule.head)
    (some : rule.bodies ≠ []) (each : ∀ b ∈ rule.bodies, ∀ s ∈ b, Legible s) (asRow : Bool) :
    Sealed (rule.latex asRow terminals escape).toList (if asRow then 2 else 0) := by
  have arrow : Sealed (if asRow then " & \\rightarrow &" else " \\rightarrow ").toList
      (if asRow then 2 else 0) := by
    cases asRow <;> exact (by decide : Bare _ _).sealed
  have opening := (sealed_escape escapes legible).append arrow
  simpa [latex, some] using opening.append (sealed_bodies escapes terminals each)

theorem Printable.latexRow (printable : rule.Printable) (escapes : Escapes escape) :
    LatexRow escape rule.head 2 (rule.latex true terminals escape).toList where
  toSealed := sealed_latex escapes printable.legible printable.inhabited printable.bodies true
  begins := by
    simp only [latex, List.isEmpty_iff, printable.inhabited, if_false, if_true,
      String.toList_append]
    rw [List.append_assoc, List.prefix_append_right_inj]
    exact List.prefix_append_of_prefix (by decide)

end Rule

namespace ParseTable

variable {t : ParseTable}

/-- The line that begins the array of a table. -/
def latexOpening (t : ParseTable) : String :=
  arrayOpening ("c" ++ "".intercalate (t.terminals.map fun _ => "|l"))

/-- The line of the labels. -/
def latexHeader (t : ParseTable) (escape : String → String) : String :=
  " & ".intercalate ("" :: t.terminals.map fun s => "\\text\x7b" ++ escape s ++ "\x7d")
    ++ "\\\\\\hline"

theorem latex_eq (t : ParseTable) (escape : String → String) : t.latex escape =
    t.latexOpening ++ "\n" ++ (t.latexHeader escape ++ "\n" ++
      ("\\\\\n".intercalate (t.nonTerminals.map (t.latexRow escape)) ++ "\n" ++ arrayEnd)) := by
  -- The opening is the first cell of the header, so the end of its line is inside that cell.
  have begin : "\\[\\begin\x7barray\x7d\x7bc" = "\\[\\begin\x7barray\x7d\x7b" ++ "c" := rfl
  have brace : "\x7d\n" = "\x7d" ++ ("\n" ++ "") := rfl
  have rule : "\\\\\\hline\n" = "\\\\\\hline" ++ "\n" := rfl
  have closing : "\n\\end\x7barray\x7d\\]" = "\n" ++ arrayEnd := rfl
  unfold latex latexOpening latexHeader arrayOpening
  simp only [begin, brace, rule, closing]
  simp only [← String.append_assoc]
  simp only [String.intercalate_cons_append]

/-- The lines of the rows. -/
def rowLines (t : ParseTable) (escape : String → String) : List (List Char) :=
  endRows (t.nonTerminals.map fun head => (t.latexRow escape head).toList)

theorem toList_latex (escape : String → String) (some : t.nonTerminals ≠ []) :
    (t.latex escape).toList = ['\n'].intercalate (t.latexOpening.toList ::
      (t.latexHeader escape).toList :: (t.rowLines escape ++ [arrayEnd.toList])) := by
  have filled : t.rowLines escape ≠ [] := endRows_ne_nil_iff.2 (mt List.map_eq_nil_iff.1 some)
  have behind : t.rowLines escape ++ [arrayEnd.toList] ≠ [] :=
    List.append_ne_nil_of_right_ne_nil _ (List.cons_ne_nil arrayEnd.toList [])
  have newline : "\n".toList = ['\n'] := rfl
  rw [latex_eq, List.intercalate_cons_cons, List.intercalate_cons_of_ne_nil behind,
    intercalate_append filled (List.cons_ne_nil _ _), List.intercalate_singleton, rowLines,
    ← intercalate_endRows]
  simp only [String.toList_append, String.toList_intercalate, List.map_map, newline]
  rfl

theorem sealed_latexOpening (t : ParseTable) : Sealed t.latexOpening.toList 0 := by
  have others : Sealed ("".intercalate (t.terminals.map fun _ => "|l")).toList 0 := by
    refine sealed_joined (by decide : Bare "".toList 0).sealed (List.forall_mem_map.2 fun _ _ => ?_)
    exact (by decide : Bare "|l".toList 0).sealed
  have columns := (by decide : Bare "c".toList 0).sealed.append others
  rw [← String.toList_append] at columns
  exact sealed_arrayOpening columns

namespace Printable

variable (printable : t.Printable) (escapes : Escapes escape)

include printable escapes

theorem sealed_latexCell {head terminal : Symbol} (named : head ∈ t.nonTerminals) :
    Sealed (t.latexCell escape head terminal).toList 0 := by
  have legible := printable.heads head named
  have each := printable.cells head terminal
  have text : Sealed ((t.cell head terminal).latex false t.terminals escape).toList 0 := by
    by_cases nothing : (t.cell head terminal).bodies = []
    · simpa [Rule.latex, nothing] using sealed_nil
    · exact Rule.sealed_latex escapes legible nothing each false
  unfold latexCell
  split
  case isTrue =>
    have red := (by decide : Bare "red".toList 0).sealed
    have color := (by decide : Bare "\\color".toList 0).command red
    simpa using (color.append text).group
  case isFalse => exact text

theorem sealed_latexRow (named : head ∈ t.nonTerminals) :
    Sealed (t.latexRow escape head).toList t.terminals.length := by
  have joint : Sealed " & ".toList 1 := (by decide : Bare _ 1).sealed
  have cells : ∀ cell ∈ escape head :: t.terminals.map (t.latexCell escape head),
      Sealed cell.toList 0 := by
    refine List.forall_mem_cons.2 ⟨sealed_escape escapes (printable.heads head named), ?_⟩
    exact List.forall_mem_map.2 fun terminal _ => printable.sealed_latexCell escapes named
  simpa [latexRow] using sealed_intercalate joint cells

theorem sealed_latexHeader : Sealed (t.latexHeader escape).toList t.terminals.length := by
  have joint : Sealed " & ".toList 1 := (by decide : Bare _ 1).sealed
  have rule : Sealed "\\\\\\hline".toList 0 := (by decide : Bare _ 0).sealed
  have cells : ∀ cell ∈ "" :: t.terminals.map (fun s => "\\text\x7b" ++ escape s ++ "\x7d"),
      Sealed cell.toList 0 := by
    refine List.forall_mem_cons.2 ⟨sealed_nil, ?_⟩
    exact List.forall_mem_map.2 fun s inside => sealed_upright escapes (printable.labels s inside)
  rw [latexHeader, String.toList_append]
  simpa only [List.length_cons, List.length_map, Nat.one_mul, Nat.add_sub_cancel,
    Nat.add_zero] using
    (sealed_intercalate joint cells).append rule

theorem latexRow (labelled : t.terminals ≠ []) (named : head ∈ t.nonTerminals) :
    LatexRow escape head t.terminals.length (t.latexRow escape head).toList where
  toSealed := printable.sealed_latexRow escapes named
  begins := by
    obtain ⟨label, labels, same⟩ := List.exists_cons_of_ne_nil labelled
    rw [ParseTable.latexRow, same, List.map_cons, String.intercalate_cons_cons,
      String.toList_append, String.toList_append]
    exact List.prefix_append _ _

theorem exists_splitOn_latex (labelled : t.terminals ≠ []) (some : t.nonTerminals ≠ []) :
    ∃ rows, (t.latex escape).toList.splitOn '\n' =
        t.latexOpening.toList :: (t.latexHeader escape).toList :: (rows ++ [arrayEnd.toList]) ∧
      List.Forall₂ (fun head row => LatexRow escape head t.terminals.length row) t.nonTerminals
        rows ∧
      Intact (t.latex escape).toList := by
  have ends := List.forall₂_map_left_iff.1 (forall₂_endRows (t.nonTerminals.map
    fun head => (t.latexRow escape head).toList))
  have rows : List.Forall₂ (fun head line => LatexRow escape head t.terminals.length line)
      t.nonTerminals (t.rowLines escape) := by
    refine ((List.forall₂_and_left _ _).2 ⟨fun head named => named, ends⟩).imp ?_
    rintro head line ⟨named, rfl | rfl⟩
    · exact printable.latexRow escapes labelled named
    · exact (printable.latexRow escapes labelled named).ended
  obtain ⟨split, intact⟩ := splitOn_of_sealed (t.toList_latex escape some) (List.cons_ne_nil _ _) <| by
    refine List.forall_mem_cons.2 ⟨⟨_, t.sealed_latexOpening⟩, ?_⟩
    refine List.forall_mem_cons.2 ⟨⟨_, printable.sealed_latexHeader escapes⟩, ?_⟩
    refine List.forall_mem_append.2 ⟨?_, List.forall_mem_singleton.2 ⟨0, sealed_arrayEnd⟩⟩
    exact forall_mem_of_forall₂ rows fun head line shown => ⟨_, shown.toSealed⟩
  exact ⟨_, split, rows, intact⟩

end Printable

end ParseTable

namespace Grammar

variable {g : Grammar}

theorem toList_productionsLatex (g : Grammar) (escape : String → String) :
    (g.productionsLatex escape).toList =
      ['\n'].intercalate (((arrayOpening "cll").toList ++ rowEnd) ::
        (g.rules.map (fun rule => (rule.latex true g.terminals.toList escape).toList ++ rowEnd) ++
          [arrayEnd.toList])) := by
  have lines : (g.productionsLatex escape).toList = "\\\\\n".toList.intercalate
      (((arrayOpening "cll").toList ::
        g.rules.map fun rule => (rule.latex true g.terminals.toList escape).toList) ++
          [arrayEnd.toList]) := by
    have opening : "\\[\\begin\x7barray\x7d\x7bcll\x7d" = arrayOpening "cll" := rfl
    have closing : "\\end\x7barray\x7d\\]" = arrayEnd := rfl
    unfold productionsLatex
    rw [opening, closing, String.toList_intercalate]
    simp only [List.map_cons, List.map_append, List.map_map, List.map_nil, Function.comp_def]
  rw [lines, intercalate_endRows, endRows_concat]
  simp [Function.comp_def]

theorem exists_splitOn_productionsLatex (escapes : Escapes escape)
    (each : ∀ rule ∈ g.rules, rule.Printable) :
    ∃ rows, (g.productionsLatex escape).toList.splitOn '\n' =
        ((arrayOpening "cll").toList ++ rowEnd) :: (rows ++ [arrayEnd.toList]) ∧
      List.Forall₂ (fun rule row => LatexRow escape rule.head 2 row) g.rules rows ∧
      Intact (g.productionsLatex escape).toList := by
  have rows : List.Forall₂ (fun rule row => LatexRow escape rule.head 2 row) g.rules
      (g.rules.map fun rule => (rule.latex true g.terminals.toList escape).toList ++ rowEnd) := by
    refine List.forall₂_map_right_iff.2 (List.forall₂_same.2 fun rule inside => ?_)
    exact ((each rule inside).latexRow escapes).ended
  have text := g.toList_productionsLatex escape
  obtain ⟨split, intact⟩ := splitOn_of_sealed text (List.cons_ne_nil _ _) <| by
    have columns := (by decide : Bare "cll".toList 0).sealed
    have opening := (sealed_arrayOpening columns).append (by decide : Bare rowEnd 0).sealed
    refine List.forall_mem_cons.2 ⟨⟨0, opening⟩, ?_⟩
    refine List.forall_mem_append.2 ⟨?_, List.forall_mem_singleton.2 ⟨0, sealed_arrayEnd⟩⟩
    exact forall_mem_of_forall₂ rows fun rule line shown => ⟨_, shown.toSealed⟩
  exact ⟨_, split, rows, intact⟩

/-- Where symbols are escaped, none breaks the LaTeX of the table or of the productions of a reachable
grammar. The table has a line for the labels and one for each non-terminal, with as many column
separators as there are labels, and the productions have a line for each rule, with two column
separators. Both leave no brace open and begin no comment, parameter or formula. -/
theorem Reachable.exists_latexRows (reachable : g.Reachable) {writers : Writers}
    (escapes : Escapes writers.escape) :
    (∃ t rows, g.buildTable = .ok t ∧
      (t.render .latex writers).toList.splitOn '\n' = t.latexOpening.toList ::
        (t.latexHeader writers.escape).toList :: (rows ++ [arrayEnd.toList]) ∧
      (unescaped (t.latexHeader writers.escape).toList).count '&' = t.terminals.length ∧
      List.Forall₂ (fun head row => (writers.escape head).toList ++ " & ".toList <+: row ∧
        (unescaped row).count '&' = t.terminals.length) g.names rows ∧
      Intact (t.render .latex writers).toList) ∧
    ∃ rows, (g.showProductions .latex writers).toList.splitOn '\n' =
        ((arrayOpening "cll").toList ++ rowEnd) :: (rows ++ [arrayEnd.toList]) ∧
      List.Forall₂ (fun rule row => (writers.escape rule.head).toList ++ " & ".toList <+: row ∧
        (unescaped row).count '&' = 2) g.rules rows ∧
      Intact (g.showProductions .latex writers).toList := by
  have valid := reachable.wellFormed
  constructor
  · obtain ⟨t, built, heads, labels, printable⟩ := reachable.exists_printable_table
    have labelled : t.terminals ≠ [] := by simp [labels]
    have some : t.nonTerminals ≠ [] := heads ▸ List.ne_nil_of_mem valid.start
    obtain ⟨rows, split, shown, intact⟩ := printable.exists_splitOn_latex escapes labelled some
    rw [heads] at shown
    refine ⟨t, rows, built, split, (printable.sealed_latexHeader escapes).count, ?_, intact⟩
    exact shown.imp fun head row shows => ⟨shows.begins, shows.count⟩
  · have printable : ∀ rule ∈ g.rules, rule.Printable := fun rule =>
      printable_of_mem_rules valid reachable.legible
    obtain ⟨rows, split, shown, intact⟩ := exists_splitOn_productionsLatex escapes printable
    refine ⟨rows, split, ?_, intact⟩
    exact shown.imp fun rule row shows => ⟨shows.begins, shows.count⟩

/-- All its symbols are made of characters with a meaning in LaTeX, and its table has a conflict. -/
def markedGrammar : Grammar where
  start := "\\"
  nonTerminals :=
    .insert (.insert ∅ "\\"
      (.ofProductions "\\" (.ofList [[epsilon], ["\\&"], ["\\&", "\x7d"]]))) "\x7d"
      (.ofProductions "\x7d" (.ofList [["$$\\"], ["\x7b%--", "#$"]]))
  terminals := .ofList ["#$", "$$\\", "\\&", "\x7b%--"]
  firstFollowValid := false

theorem markedGrammar_latexRows :
    Escapes Writers.linked.escape ∧
      Grammar.parse "\\ -> \\& \x7d | \\& | &\n\x7d -> \x7b%-- #$\n | $$\\" = .ok markedGrammar ∧
      (∃ t rows, markedGrammar.buildTable = .ok t ∧
        t.entries "\\" "\\&" = [["\\&"], ["\\&", "\x7d"]] ∧
        t.latexCell Writers.linked.escape "\\" "\\&" =
          "\x7b\\color\x7bred\x7d\\textbackslash\x7b\x7d \\rightarrow " ++
            "\\text\x7b\\textbackslash\x7b\x7d\\&\x7d \\mid " ++
            "\\text\x7b\\textbackslash\x7b\x7d\\&\x7d \\ \\\x7d\x7d" ∧
        (t.render .latex).toList.splitOn '\n' = t.latexOpening.toList ::
          (t.latexHeader Writers.linked.escape).toList :: (rows ++ [arrayEnd.toList]) ∧
        (unescaped (t.latexHeader Writers.linked.escape).toList).count '&' = 5 ∧ rows.length = 2 ∧
        Intact (t.render .latex).toList) ∧
      ∃ rows, (markedGrammar.showProductions .latex).toList.splitOn '\n' =
          ((arrayOpening "cll").toList ++ rowEnd) :: (rows ++ [arrayEnd.toList]) ∧
        rows.length = 2 ∧ Intact (markedGrammar.showProductions .latex).toList := by
  have escapes : Escapes Writers.linked.escape := escapes_escape
  have read : Grammar.parse "\\ -> \\& \x7d | \\& | &\n\x7d -> \x7b%-- #$\n | $$\\" =
    .ok markedGrammar := rfl
  obtain ⟨⟨t, rows, built, split, header, shown, intact⟩, lines, split', shown', intact'⟩ :=
    (Reachable.parse read).exists_latexRows escapes
  have cells : markedGrammar.buildTable.map (fun t => (t.terminals.length, t.entries "\\" "\\&",
      t.latexCell Writers.linked.escape "\\" "\\&")) =
      .ok (5, [["\\&"], ["\\&", "\x7d"]],
        "\x7b\\color\x7bred\x7d\\textbackslash\x7b\x7d \\rightarrow " ++
          "\\text\x7b\\textbackslash\x7b\x7d\\&\x7d \\mid " ++
          "\\text\x7b\\textbackslash\x7b\x7d\\&\x7d \\ \\\x7d\x7d") := by
    decide +kernel
  rw [built] at cells
  obtain ⟨labels, cell⟩ := Prod.mk.inj (Except.ok.inj cells)
  obtain ⟨cell, text⟩ := Prod.mk.inj cell
  refine ⟨escapes, read, ⟨t, rows, built, cell, text, split, header.trans labels, ?_, intact⟩,
    lines, split', ?_, intact'⟩
  · exact shown.length_eq.symm
  · exact shown'.length_eq.symm

end Grammar

end Predictive
