import Predictive.Proofs.Layout.Rules
import Predictive.Proofs.Reader.Legible

set_option autoImplicit false

namespace Predictive

open Text GrammarText

/-- A body behind the arrow or the bar. -/
def rightText (b : Body) : List Char := ' ' :: [' '].intercalate (b.map String.toList)

/-- The line of the first alternative. -/
def headText (width : Nat) (head : Symbol) (b : Body) : List Char :=
  head.toList.leftpad width ' ' ++ [' '] ++ arrow ++ rightText b

/-- The line of a further alternative. -/
def continuationText (width : Nat) (b : Body) : List Char :=
  List.replicate (width + 2) ' ' ++ '|' :: rightText b

variable {width : Nat} {b : Body} {head : Symbol} {c : Char}

theorem forall_mem_of_forall₂ {α β : Type} {R : α → β → Prop} {P : β → Prop} {sources : List α}
    {lines : List β} (related : List.Forall₂ R sources lines) (each : ∀ a b, R a b → P b) :
    ∀ b ∈ lines, P b := by
  induction related with
  | nil => simp
  | cons first others ih => exact List.forall_mem_cons.2 ⟨each _ _ first, ih⟩

theorem allBlank_replicate (count : Nat) : AllBlank (List.replicate count ' ') := by
  intro c inside
  rw [List.eq_of_mem_replicate inside]
  decide

theorem tokens_rightText (each : ∀ s ∈ b, Legible s) : tokens (rightText b) = b := by
  have words : ∀ w ∈ b.map String.toList, w ≠ [] ∧ Solid w := by
    intro w inside
    obtain ⟨s, among, rfl⟩ := List.mem_map.1 inside
    exact ⟨(each s among).inhabited, (each s among).solid⟩
  rw [tokens_eq_words, rightText, words_cons_blank (by decide), words_intercalate words,
    List.map_map]
  simp

theorem not_arrow_rightText (each : ∀ s ∈ b, Legible s) : ¬ arrow <:+: rightText b := by
  have blank : AllBlank [' '] := allBlank_replicate 1
  rw [rightText, ← List.singleton_append, arrow_isInfix_append_iff blank,
    arrow_isInfix_intercalate_iff]
  intro found
  obtain ⟨w, inside, arrowed⟩ := found
  obtain ⟨s, among, rfl⟩ := List.mem_map.1 inside
  exact (each s among).free arrowed

theorem mem_of_mem_rightText (inside : c ∈ rightText b) : c = ' ' ∨ ∃ s ∈ b, c ∈ s.toList := by
  rcases List.mem_cons.1 inside with same | inside
  · exact .inl same
  · rcases mem_of_mem_intercalate inside with blank | ⟨w, among, within⟩
    · exact .inl (List.mem_singleton.1 blank)
    · obtain ⟨s, listed, rfl⟩ := List.mem_map.1 among
      exact .inr ⟨s, listed, within⟩

theorem newline_not_mem_rightText (each : ∀ s ∈ b, Legible s) : '\n' ∉ rightText b := by
  intro inside
  rcases mem_of_mem_rightText inside with same | ⟨s, among, newline⟩
  · contradiction
  · exact (each s among).newline_not_mem newline

theorem newline_not_mem_headText (legible : Legible head) (each : ∀ s ∈ b, Legible s) :
    '\n' ∉ headText width head b := by
  simp [headText, List.leftpad, arrow, legible.newline_not_mem, newline_not_mem_rightText each]

theorem headLine_headText (legible : Legible head) (proper : RuleLine.Proper head)
    (each : ∀ s ∈ b, Legible s) : HeadLine (headText width head b) head (rightText b) := by
  have blank : AllBlank [' '] := allBlank_replicate 1
  have padded : head.toList.leftpad width ' ' =
      List.replicate (width - head.toList.length) ' ' ++ head.toList := rfl
  refine ⟨head.toList.leftpad width ' ' ++ [' '], rfl, ?_, not_arrow_rightText each, ?_, proper⟩
  · rw [arrow_isInfix_append_cons_iff (by decide), padded,
      arrow_isInfix_append_iff (allBlank_replicate _)]
    exact not_or.2 ⟨legible.free, by simp [arrow]⟩
  · exact ⟨legible.inhabited, legible.solid, _, [' '], allBlank_replicate _, blank, by rw [padded]⟩

theorem continuationLine_continuationText (each : ∀ s ∈ b, Legible s) :
    ContinuationLine (continuationText width b) (rightText b) := by
  refine ⟨?_, _, allBlank_replicate (width + 2), rfl⟩
  rw [continuationText, arrow_isInfix_append_cons_iff (by decide), not_or]
  refine ⟨fun arrowed => ?_, not_arrow_rightText each⟩
  have dash := List.eq_of_mem_replicate (arrowed.subset (show '-' ∈ arrow by decide))
  contradiction

namespace Rule

variable {rule : Rule}

def plainLines (width : Nat) (rule : Rule) : List (List Char) :=
  match rule.bodies with
  | [] => []
  | first :: others => headText width rule.head first :: others.map (continuationText width)

/-- The right parts of the lines, each for the head. -/
def given (rule : Rule) : List (Symbol × List Char) :=
  rule.bodies.map fun b => (rule.head, rightText b)

theorem toList_opening (width : Nat) (head : Symbol) (b : Body) :
    (padLeft width head ++ " -> " ++ " ".intercalate b).toList = headText width head b := by
  simp [headText, rightText, padLeft, arrow, String.toList_intercalate]

theorem toList_plain : (rule.plain width true).toList = ['\n'].intercalate (rule.plainLines width) := by
  have barred (b : Body) : (padLeft width "" ++ "  | " ++ " ".intercalate b).toList =
      continuationText width b := by
    simp [continuationText, rightText, padLeft, List.leftpad, String.toList_intercalate,
      List.replicate_succ']
  unfold plain plainLines
  cases rule.bodies with
  | nil => rfl
  | cons first others =>
      simp only [List.map_cons, String.toList_intercalate, if_true, List.map_map, toList_opening]
      congr 2
      apply List.map_congr_left
      intro b _
      exact barred b

/-- A rule that a text can hold. -/
structure Printable (rule : Rule) : Prop where
  legible : Legible rule.head
  proper : RuleLine.Proper rule.head
  inhabited : rule.bodies ≠ []
  bodies : ∀ b ∈ rule.bodies, ∀ s ∈ b, Legible s

theorem Printable.plainLines_ne_nil (printable : rule.Printable) (width : Nat) :
    rule.plainLines width ≠ [] := by
  unfold plainLines
  have some := printable.inhabited
  cases bodies : rule.bodies with
  | nil => contradiction
  | cons first others => simp

theorem Printable.newline_not_mem (printable : rule.Printable) {line : List Char}
    (inside : line ∈ rule.plainLines width) : '\n' ∉ line := by
  have each := printable.bodies
  unfold plainLines at inside
  cases bodies : rule.bodies with
  | nil =>
      rw [bodies] at inside
      contradiction
  | cons first others =>
      rw [bodies] at inside each
      rcases List.mem_cons.1 inside with rfl | inside
      · exact newline_not_mem_headText printable.legible (each first List.mem_cons_self)
      · obtain ⟨b, listed, rfl⟩ := List.mem_map.1 inside
        have behind := newline_not_mem_rightText (each b (List.mem_cons_of_mem first listed))
        simp [continuationText, behind]

theorem newline_not_mem_plain (legible : Legible rule.head)
    (each : ∀ b ∈ rule.bodies, ∀ s ∈ b, Legible s) : '\n' ∉ (rule.plain width false).toList := by
  unfold plain
  cases bodies : rule.bodies with
  | nil => simp
  | cons first others =>
      rw [bodies] at each
      have barred (b : Body) : (" | " ++ " ".intercalate b).toList = ' ' :: '|' :: rightText b := by
        simp [rightText, String.toList_intercalate]
      simp only [List.map_cons, Bool.false_eq_true, if_false, List.map_map]
      rw [String.toList_append, toList_opening, List.mem_append, String.toList_intercalate]
      refine not_or.2 ⟨newline_not_mem_headText legible (each first List.mem_cons_self), ?_⟩
      intro inside
      rcases mem_of_mem_intercalate inside with nothing | ⟨part, among, newline⟩
      · contradiction
      · obtain ⟨written, made, rfl⟩ := List.mem_map.1 among
        obtain ⟨b, listed, rfl⟩ := List.mem_map.1 made
        have behind := newline_not_mem_rightText (each b (List.mem_cons_of_mem first listed))
        rw [Function.comp_apply, barred] at newline
        simp [behind] at newline

theorem readFrom_continuationText {bodies : List Body} {ls : List (List Char)}
    {rest : List (Symbol × List Char)} (each : ∀ b ∈ bodies, ∀ s ∈ b, Legible s)
    (later : ReadFrom (some head) ls rest) :
    ReadFrom (some head) (bodies.map (continuationText width) ++ ls)
      (bodies.map (fun b => (head, rightText b)) ++ rest) := by
  induction bodies with
  | nil => exact later
  | cons b bodies ih =>
      obtain ⟨first, others⟩ := List.forall_mem_cons.1 each
      exact .continued (continuationLine_continuationText first) (ih others)

/-- The lines of a rule are read one after another, for its head. -/
theorem Printable.readFrom (printable : rule.Printable) {ls : List (List Char)}
    {rest : List (Symbol × List Char)} (later : ReadFrom (some rule.head) ls rest)
    (previous : Option Symbol) :
    ReadFrom previous (rule.plainLines width ++ ls) (rule.given ++ rest) := by
  obtain ⟨legible, proper, inhabited, each⟩ := printable
  unfold plainLines given
  cases bodies : rule.bodies with
  | nil => contradiction
  | cons first others =>
      rw [bodies] at each
      obtain ⟨here, further⟩ := List.forall_mem_cons.1 each
      exact .headed (headLine_headText legible proper here) (readFrom_continuationText further later)

end Rule

theorem readFrom_plainLines {rules : List Rule} (each : ∀ rule ∈ rules, rule.Printable)
    (previous : Option Symbol) :
    ReadFrom previous (rules.flatMap (Rule.plainLines width)) (rules.flatMap Rule.given) := by
  induction rules generalizing previous with
  | nil => exact .nil previous
  | cons rule rules ih =>
      obtain ⟨first, others⟩ := List.forall_mem_cons.1 each
      exact first.readFrom (ih others _) previous

namespace Grammar

variable {g : Grammar} {rule : Rule}

theorem mem_rules_of_mem_names (valid : g.WellFormed) {name : Symbol} (named : name ∈ g.names) :
    ⟨name, (g.bodies name).toList⟩ ∈ g.rules := valid.named.mem_rules_iff.2 ⟨named, rfl⟩

theorem printable_of_mem_rules (valid : g.WellFormed) (legible : ∀ s ∈ g.allSymbols, Legible s)
    (listed : rule ∈ g.rules) : rule.Printable := by
  obtain ⟨named, bodies⟩ := valid.named.mem_rules_iff.1 listed
  have known : rule.head ∈ g.allSymbols := mem_allSymbols.2 (.inl named)
  obtain ⟨b, inside⟩ := valid.inhabited rule.head named
  refine ⟨legible _ known, ⟨valid.ne_epsilon named, valid.ne_endMark_of_mem known⟩, ?_, ?_⟩
  · rw [bodies]
    exact List.ne_nil_of_mem (OrderedSet.mem_toList.2 inside)
  · intro b within
    rw [bodies] at within
    exact valid.legible_of_mem_bodies legible (OrderedSet.mem_toList.1 within)

/-- The length in UTF-8 of the longest head. -/
def headWidth (g : Grammar) : Nat := (g.rules.map fun rule => rule.head.utf8ByteSize).foldr max 0

theorem splitOn_productionsPlain (each : ∀ rule ∈ g.rules, rule.Printable) (some : g.rules ≠ []) :
    g.productionsPlain.toList.splitOn '\n' = g.rules.flatMap (Rule.plainLines g.headWidth) := by
  have filled : ∀ group ∈ g.rules.map (Rule.plainLines g.headWidth), group ≠ [] := by
    intro group inside
    obtain ⟨rule, listed, rfl⟩ := List.mem_map.1 inside
    exact (each rule listed).plainLines_ne_nil g.headWidth
  have text : g.productionsPlain.toList =
      ['\n'].intercalate (g.rules.flatMap (Rule.plainLines g.headWidth)) := by
    rw [List.flatMap_def, intercalate_flatten filled, productionsPlain, String.toList_intercalate,
      List.map_map, List.map_map]
    exact congrArg _ (List.map_congr_left fun rule _ => Rule.toList_plain)
  have unbroken : ∀ line ∈ g.rules.flatMap (Rule.plainLines g.headWidth), '\n' ∉ line := by
    intro line inside
    obtain ⟨rule, listed, within⟩ := List.mem_flatMap.1 inside
    exact (each rule listed).newline_not_mem within
  have more : g.rules.flatMap (Rule.plainLines g.headWidth) ≠ [] := by
    intro nothing
    obtain ⟨rule, others, split⟩ := List.exists_cons_of_ne_nil some
    have listed : rule ∈ g.rules := by simp [split]
    exact (each rule listed).plainLines_ne_nil _ (List.flatMap_eq_nil_iff.1 nothing rule listed)
  rw [text, List.splitOn_intercalate _ unbroken more]

theorem lines_productionsPlain (each : ∀ rule ∈ g.rules, rule.Printable) (some : g.rules ≠ []) :
    lines g.productionsPlain = g.rules.flatMap (Rule.plainLines g.headWidth) := by
  have reads : ReadFrom none (g.rules.flatMap (Rule.plainLines g.headWidth)) _ :=
    readFrom_plainLines each none
  rw [lines, splitOn_productionsPlain each some, reads.withoutBlank_eq]

end Grammar

end Predictive
