import Predictive.Layout.Table
import Predictive.Proofs.Layout.PlainLines
import Mathlib.Data.List.MinMax
import Mathlib.Data.String.Basic
import Mathlib.Order.Nat

set_option autoImplicit false

namespace Predictive

open Text GrammarText

theorem length_le_utf8ByteSize (text : String) : text.length ≤ text.utf8ByteSize := by
  have characters (cs : List Char) : cs.length ≤ String.utf8Len cs := by
    induction cs with
    | nil => exact Nat.le_refl 0
    | cons c cs ih =>
        have one := c.utf8Size_pos
        rw [List.length_cons, String.utf8Len_cons]
        omega
  rw [← String.length_toList, ← String.ofList_toList (s := text), String.utf8ByteSize_ofList,
    String.toList_ofList]
  exact characters text.toList

/-- What stands between two columns of a table. -/
def columnBar : List Char := [' ', '|', ' ']

/-- The line shows the texts in columns of these widths: each at the right end of its column, with a
bar between neighbours. -/
inductive InColumns : List Nat → List String → List Char → Prop
  | last {width : Nat} {text : String} (fits : text.length ≤ width) :
      InColumns [width] [text] (text.toList.leftpad width ' ')
  | cons {width : Nat} {text : String} {widths : List Nat} {texts : List String} {line : List Char}
      (fits : text.length ≤ width) (others : InColumns widths texts line) :
      InColumns (width :: widths) (text :: texts) (text.toList.leftpad width ' ' ++ columnBar ++ line)

/-- The number of characters in columns of these widths. -/
def lineWidth : List Nat → Nat
  | [] => 0
  | [width] => width
  | width :: next :: widths => width + columnBar.length + lineWidth (next :: widths)

/-- How many characters stand before the bars between columns of these widths. -/
def barOffsets : List Nat → List Nat
  | [] => []
  | [_] => []
  | width :: next :: widths =>
    width :: (barOffsets (next :: widths)).map (width + columnBar.length + ·)

variable {width : Nat} {widths : List Nat} {text : String} {texts : List String} {line : List Char}

theorem length_barOffsets (width : Nat) (widths : List Nat) :
    (barOffsets (width :: widths)).length = widths.length := by
  induction widths generalizing width with
  | nil => rfl
  | cons next widths ih => simp [barOffsets, ih]

theorem length_leftpad_of_fits (fits : text.length ≤ width) :
    (text.toList.leftpad width ' ').length = width := by
  rw [List.length_leftpad, String.length_toList]
  exact Nat.max_eq_left fits

theorem InColumns.length_eq (shows : InColumns widths texts line) :
    line.length = lineWidth widths := by
  induction shows with
  | last fits => exact length_leftpad_of_fits fits
  | cons fits others ih =>
      rw [List.length_append, List.length_append, length_leftpad_of_fits fits, ih]
      cases others <;> rfl

theorem InColumns.bar (shows : InColumns widths texts line) :
    ∀ offset ∈ barOffsets widths, columnBar <+: line.drop offset := by
  induction shows with
  | last fits => simp [barOffsets]
  | @cons width text widths texts line fits others ih =>
      have padded := length_leftpad_of_fits fits
      obtain ⟨next, more, rfl⟩ : ∃ next more, widths = next :: more := by cases others <;> simp
      rw [barOffsets]
      refine List.forall_mem_cons.2 ⟨?_, ?_⟩
      · rw [List.append_assoc, List.drop_left' padded]
        exact List.prefix_append columnBar line
      · intro offset inside
        obtain ⟨o, further, rfl⟩ := List.mem_map.1 inside
        have front : (text.toList.leftpad width ' ' ++ columnBar).length =
            width + columnBar.length := by
          rw [List.length_append, padded]
        rw [← List.drop_drop, List.drop_left' front]
        exact ih o further

theorem InColumns.not_mem {c : Char} (shows : InColumns widths texts line) (blank : c ≠ ' ')
    (bar : c ∉ columnBar) (each : ∀ text ∈ texts, c ∉ text.toList) : c ∉ line := by
  induction shows with
  | last fits => simpa [List.leftpad, blank] using each
  | cons fits others ih =>
      obtain ⟨first, later⟩ := List.forall_mem_cons.1 each
      simp [List.leftpad, blank, bar, first, ih later]

theorem inColumns_of_forall₂ (some : texts ≠ [])
    (fits : List.Forall₂ (fun text width => text.utf8ByteSize ≤ width) texts widths) :
    InColumns widths texts
      (columnBar.intercalate ((List.zipWith padLeft widths texts).map String.toList)) := by
  induction fits with
  | nil => contradiction
  | @cons text width texts widths first others ih =>
      have fits := Nat.le_trans (length_le_utf8ByteSize text) first
      have padded : (padLeft width text).toList = text.toList.leftpad width ' ' := by simp [padLeft]
      cases others with
      | nil => simpa [padded] using InColumns.last fits
      | cons second others =>
          have line := InColumns.cons fits (ih (by simp))
          simpa only [List.zipWith_cons_cons, List.map_cons, List.intercalate_cons_cons, padded]
            using line

namespace ParseTable

theorem forall₂_columnWidths {grid : List (List String)} {columns : Nat}
    (rectangular : ∀ line ∈ grid, line.length = columns) (some : grid ≠ []) :
    (columnWidths grid).length = columns ∧ ∀ line ∈ grid,
      List.Forall₂ (fun text width => text.utf8ByteSize ≤ width) line (columnWidths grid) := by
  induction grid with
  | nil => contradiction
  | cons line grid ih =>
      obtain ⟨first, others⟩ := List.forall_mem_cons.1 rectangular
      cases grid with
      | nil =>
          refine ⟨by simp [columnWidths, first], List.forall_mem_singleton.2 ?_⟩
          rw [columnWidths, List.forall₂_map_right_iff]
          exact List.forall₂_same.2 fun _ _ => Nat.le_refl _
      | cons next grid =>
          obtain ⟨length, below⟩ := ih others (by simp)
          have step : columnWidths (line :: next :: grid) =
              List.zipWith max (line.map String.utf8ByteSize) (columnWidths (next :: grid)) := rfl
          rw [step]
          refine ⟨by simp [length, first], List.forall_mem_cons.2 ⟨?_, fun other inside => ?_⟩⟩
          · refine List.forall₂_iff_get.2 ⟨by simp [length, first], fun i left right => ?_⟩
            simp
          · obtain ⟨same, fits⟩ := List.forall₂_iff_get.1 (below other inside)
            refine List.forall₂_iff_get.2 ⟨by simp [same, length, first], fun i left right => ?_⟩
            refine Nat.le_trans (fits i left (same ▸ left)) ?_
            simp

variable {t : ParseTable}

theorem length_of_mem_plainGrid {line : List String} (inside : line ∈ t.plainGrid) :
    line.length = t.terminals.length + 1 := by
  rcases List.mem_cons.1 inside with rfl | inside
  · rfl
  · obtain ⟨head, -, rfl⟩ := List.mem_map.1 inside
    simp

/-- A row of the layout, in columns of these widths. -/
def rowLine (widths : List Nat) (texts : List String) : List Char :=
  columnBar.intercalate ((List.zipWith padLeft widths texts).map String.toList)

theorem toList_plain (t : ParseTable) :
    t.plain.toList = ['\n'].intercalate (t.plainGrid.map (rowLine (columnWidths t.plainGrid))) := by
  simp only [plain, String.toList_intercalate, List.map_map, Function.comp_def]
  rfl

/-- The texts of the row of a head. -/
def rowTexts (t : ParseTable) (head : Symbol) : List String :=
  head :: t.terminals.map fun terminal => (t.cell head terminal).plain head.utf8ByteSize false

namespace Printable

variable (printable : t.Printable)

include printable

theorem newline_not_mem_plainGrid {texts : List String} (inside : texts ∈ t.plainGrid)
    (entry : text ∈ texts) : '\n' ∉ text.toList := by
  rcases List.mem_cons.1 inside with rfl | inside
  · rcases List.mem_cons.1 entry with rfl | label
    · simp
    · exact (printable.labels text label).newline_not_mem
  · obtain ⟨head, named, rfl⟩ := List.mem_map.1 inside
    have first := (printable.heads head named).newline_not_mem
    rcases List.mem_cons.1 entry with rfl | cell
    · exact first
    · obtain ⟨terminal, -, rfl⟩ := List.mem_map.1 cell
      exact Rule.newline_not_mem_plain (printable.heads head named) (printable.cells head terminal)

theorem exists_splitOn_plain : ∃ widths header rows,
    t.plain.toList.splitOn '\n' = header :: rows ∧ widths.length = t.terminals.length + 1 ∧
      InColumns widths ("" :: t.terminals) header ∧
      List.Forall₂ (fun head line => InColumns widths (t.rowTexts head) line)
        t.nonTerminals rows := by
  let row := rowLine (columnWidths t.plainGrid)
  have some : t.plainGrid ≠ [] := List.cons_ne_nil _ _
  obtain ⟨length, fits⟩ := forall₂_columnWidths (fun _ => t.length_of_mem_plainGrid) some
  have shown : ∀ texts ∈ t.plainGrid, InColumns (columnWidths t.plainGrid) texts (row texts) := by
    intro texts inside
    have some : texts ≠ [] := List.ne_nil_of_length_eq_add_one (length_of_mem_plainGrid inside)
    exact inColumns_of_forall₂ some (fits texts inside)
  have unbroken : ∀ line ∈ t.plainGrid.map row, '\n' ∉ line := by
    intro line inside
    obtain ⟨texts, listed, rfl⟩ := List.mem_map.1 inside
    exact (shown texts listed).not_mem (by decide) (by decide) fun text =>
      printable.newline_not_mem_plainGrid listed
  have split : t.plain.toList.splitOn '\n' = t.plainGrid.map row := by
    rw [toList_plain]
    exact List.splitOn_intercalate _ unbroken (mt List.map_eq_nil_iff.1 some)
  obtain ⟨first, others⟩ := List.forall_mem_cons.1 shown
  refine ⟨columnWidths t.plainGrid, row ("" :: t.terminals),
    (t.nonTerminals.map t.rowTexts).map row, split, length, first, ?_⟩
  rw [List.map_map, List.forall₂_map_right_iff]
  exact List.forall₂_same.2 fun head named => others _ (List.mem_map_of_mem named)

end Printable

end ParseTable

/-- The line holds the first alternative of a head, with the arrow behind `width + 1` characters. -/
def FirstLine (width : Nat) (head : Symbol) (b : Body) (line : List Char) : Prop :=
  ∃ right, HeadLine line head right ∧ tokens right = b ∧ line.drop (width + 1) = arrow ++ right

/-- The line holds a further alternative, with the bar behind `width + 2` characters. -/
def FurtherLine (width : Nat) (b : Body) (line : List Char) : Prop :=
  ∃ right, ContinuationLine line right ∧ tokens right = b ∧ line.drop (width + 2) = '|' :: right

/-- The lines hold the alternatives of the rule, one after another. -/
def RuleLines (width : Nat) (rule : Rule) (ls : List (List Char)) : Prop :=
  ∃ b others first further, rule.bodies = b :: others ∧ ls = first :: further ∧
    FirstLine width rule.head b first ∧ List.Forall₂ (FurtherLine width) others further

theorem Rule.Printable.ruleLines {rule : Rule} (printable : rule.Printable)
    (fits : rule.head.utf8ByteSize ≤ width) : RuleLines width rule (rule.plainLines width) := by
  obtain ⟨b, others, bodies⟩ := List.exists_cons_of_ne_nil printable.inhabited
  have each := printable.bodies
  rw [bodies] at each
  obtain ⟨here, further⟩ := List.forall_mem_cons.1 each
  have padded : (rule.head.toList.leftpad width ' ' ++ [' ']).length = width + 1 := by
    rw [List.length_append, length_leftpad_of_fits (Nat.le_trans (length_le_utf8ByteSize _) fits)]
    rfl
  refine ⟨b, others, headText width rule.head b, others.map (continuationText width), bodies,
    ?_, ?_, ?_⟩
  · rw [plainLines, bodies]
  · refine ⟨rightText b, headLine_headText printable.legible printable.proper here,
      tokens_rightText here, ?_⟩
    rw [headText, List.append_assoc, List.drop_left' padded]
  · rw [List.forall₂_map_right_iff]
    refine List.forall₂_same.2 fun c inside => ?_
    have legible := further c inside
    refine ⟨rightText c, continuationLine_continuationText legible, tokens_rightText legible, ?_⟩
    exact List.drop_left' List.length_replicate

namespace Grammar

variable {g : Grammar}

theorem utf8ByteSize_le_headWidth (valid : g.WellFormed) {name : Symbol} (named : name ∈ g.names) :
    name.utf8ByteSize ≤ g.headWidth :=
  List.le_max_of_le (List.mem_map_of_mem (mem_rules_of_mem_names valid named)) (Nat.le_refl _)

theorem exists_headWidth_eq (valid : g.WellFormed) :
    ∃ name ∈ g.names, name.utf8ByteSize = g.headWidth := by
  have some : (g.rules.map fun rule => rule.head.utf8ByteSize) ≠ [] :=
    mt List.map_eq_nil_iff.1 (List.ne_nil_of_mem (mem_rules_of_mem_names valid valid.start))
  have greatest := List.maximum_mem (List.foldr_max_of_ne_nil some).symm
  obtain ⟨rule, inside, same⟩ := List.mem_map.1 greatest
  exact ⟨rule.head, (valid.named.mem_rules_iff.1 inside).1, same⟩

/-- The plain text of the table of a reachable grammar has a line for the labels and one for each
non-terminal, which are equally long and have their bars in the same places. In the plain text of
its productions every arrow stands behind the width of the longest head and one blank, and every bar
behind one blank more. -/
theorem Reachable.exists_aligned (reachable : g.Reachable) :
    (∃ t widths header rows, g.buildTable = .ok t ∧
      t.plain.toList.splitOn '\n' = header :: rows ∧
      InColumns widths ("" :: t.terminals) header ∧
      List.Forall₂ (fun head line => InColumns widths (t.rowTexts head) line) g.names rows ∧
      (barOffsets widths).length = t.terminals.length ∧
      ∀ line ∈ header :: rows, line.length = lineWidth widths ∧
        ∀ offset ∈ barOffsets widths, columnBar <+: line.drop offset) ∧
    (∀ name ∈ g.names, name.utf8ByteSize ≤ g.headWidth) ∧
    (∃ name ∈ g.names, name.utf8ByteSize = g.headWidth) ∧
    ∃ groups, g.productionsPlain.toList.splitOn '\n' = groups.flatten ∧
      List.Forall₂ (RuleLines g.headWidth) g.rules groups := by
  have valid := reachable.wellFormed
  refine ⟨?_, fun name => utf8ByteSize_le_headWidth valid, exists_headWidth_eq valid, ?_⟩
  · obtain ⟨t, built, heads, -, printable⟩ := reachable.exists_printable_table
    obtain ⟨widths, header, rows, split, length, first, others⟩ := printable.exists_splitOn_plain
    rw [heads] at others
    refine ⟨t, widths, header, rows, built, split, first, others, ?_, ?_⟩
    · obtain ⟨width, widths, rfl⟩ := List.exists_cons_of_length_eq_add_one length
      rw [length_barOffsets]
      exact Nat.succ.inj length
    · refine List.forall_mem_cons.2 ⟨⟨first.length_eq, first.bar⟩, ?_⟩
      exact forall_mem_of_forall₂ others fun head line shows => ⟨shows.length_eq, shows.bar⟩
  · have printable : ∀ rule ∈ g.rules, rule.Printable := fun rule =>
      printable_of_mem_rules valid reachable.legible
    have some : g.rules ≠ [] := List.ne_nil_of_mem (mem_rules_of_mem_names valid valid.start)
    refine ⟨g.rules.map (Rule.plainLines g.headWidth), ?_, ?_⟩
    · rw [splitOn_productionsPlain printable some, List.flatMap_def]
    · rw [List.forall₂_map_right_iff]
      refine List.forall₂_same.2 fun rule inside => ?_
      have named := (valid.named.mem_rules_iff.1 inside).1
      exact (printable rule inside).ruleLines (utf8ByteSize_le_headWidth valid named)

/-- A grammar with a conflict. All but one of its symbols are longer in UTF-8 than in characters. -/
def accentedGrammar : Grammar where
  start := "é"
  nonTerminals :=
    .insert (.insert ∅ "é" (.ofProductions "é" (.ofList [["→→", "日本"], ["λ"]]))) "→→"
      (.ofProductions "→→" (.ofList [["λ"], [epsilon]]))
  terminals := .ofList ["λ", "日本"]
  firstFollowValid := false

theorem accentedGrammar_aligned :
    Grammar.parse "é -> →→ 日本 | λ\n→→ -> λ | &" = .ok accentedGrammar ∧
      accentedGrammar.headWidth = 6 ∧
      accentedGrammar.productionsPlain =
        "     é -> λ\n        | →→ 日本\n    →→ -> &\n        | λ" ∧
      (∃ t widths header rows, accentedGrammar.buildTable = .ok t ∧
        t.plain.toList.splitOn '\n' = header :: rows ∧ rows.length = 2 ∧
        t.rowTexts "é" = ["é", " é -> λ | →→ 日本", " é -> →→ 日本", ""] ∧
        (barOffsets widths).length = 3 ∧
        ∀ line ∈ header :: rows, line.length = lineWidth widths) ∧
      ∃ groups, accentedGrammar.productionsPlain.toList.splitOn '\n' = groups.flatten ∧
        List.Forall₂ (RuleLines 6) accentedGrammar.rules groups := by
  have read : Grammar.parse "é -> →→ 日本 | λ\n→→ -> λ | &" = .ok accentedGrammar := rfl
  obtain ⟨⟨t, widths, header, rows, built, split, -, shown, bars, lines⟩, -, -, groups⟩ :=
    (Reachable.parse read).exists_aligned
  have texts : accentedGrammar.buildTable.map (fun t => (t.terminals.length, t.rowTexts "é")) =
      .ok (3, ["é", " é -> λ | →→ 日本", " é -> →→ 日本", ""]) := by decide +kernel
  rw [built] at texts
  obtain ⟨labels, texts⟩ := Prod.mk.inj (Except.ok.inj texts)
  have width : accentedGrammar.headWidth = 6 := by decide
  rw [width] at groups
  refine ⟨read, width, by decide +kernel, ⟨t, widths, header, rows, built, split, ?_, texts,
    bars.trans labels, fun line inside => (lines line inside).1⟩, groups⟩
  exact shown.length_eq.symm

end Grammar

end Predictive
