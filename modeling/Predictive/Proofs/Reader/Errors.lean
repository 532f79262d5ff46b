import Predictive.Proofs.Reader.Exactness

set_option autoImplicit false

namespace Predictive

namespace GrammarText

open Text

variable {line left right piece : List Char} {above ls : List (List Char)} {number : Nat}
  {remembered : Prop} {e : ParseError}

/-- The line has one arrow, between these parts. -/
def OneArrow (line left right : List Char) : Prop :=
  line = left ++ arrow ++ right ∧ ¬ arrow <:+: left ∧ ¬ arrow <:+: right

/-- What is wrong with the shape of a line; `remembered` says whether there is a line that it could
go on with. -/
inductive ShapeFault (remembered : Prop) (number : Nat) (line : List Char) : ParseError → Prop where
  | tooManyArrows {left middle right : List Char}
      (split : line = left ++ arrow ++ middle ++ arrow ++ right) :
      ShapeFault remembered number line (.tooManyArrows number)
  | emptyLeft {left right : List Char} (single : OneArrow line left right) (blank : AllBlank left) :
      ShapeFault remembered number line (.emptyLeft number)
  | leftContainsWhitespace {left right : List Char} (single : OneArrow line left right)
      (several : 1 < (tokens left).length) :
      ShapeFault remembered number line (.leftContainsWhitespace number)
  | reservedSymbol {left right : List Char} {head : Symbol} (single : OneArrow line left right)
      (trims : TrimsTo left head) (mark : head = epsilon ∨ head = endMark) :
      ShapeFault remembered number line (.reservedSymbol number head)
  | noPreviousLeft {right : List Char} (continues : ContinuationLine line right)
      (first : ¬ remembered) : ShapeFault remembered number line (.noPreviousLeft number)
  | missingArrow (free : ¬ arrow <:+: line) (other : ¬ ∃ right, ContinuationLine line right) :
      ShapeFault remembered number line (.missingArrow number)

/-- One of the lines is not blank. -/
def HasLine (ls : List (List Char)) : Prop := ∃ line ∈ ls, ¬ AllBlank line

/-- The line is not blank, and has not the shape of the format below the lines `above`. -/
def Misshapen (above : List (List Char)) (line : List Char) : Prop :=
  ¬ AllBlank line ∧ ¬ Shaped (HasLine above) line

/-- An alternative that can stand: it has a token, and none is the end mark. -/
def Filled (piece : List Char) : Prop := tokens piece ≠ [] ∧ endMark ∉ tokens piece

inductive AlternativeFault (number : Nat) (piece : List Char) : ParseError → Prop where
  | empty (nothing : tokens piece = []) : AlternativeFault number piece (.emptyAlternative number)
  | marked (something : tokens piece ≠ []) (mark : endMark ∈ tokens piece) :
      AlternativeFault number piece (.reservedSymbol number endMark)

/-- One of the alternatives of the line cannot stand. -/
def Unfilled (line : List Char) : Prop :=
  ∃ right, RightPart line right ∧ ∃ piece ∈ right.splitOn '|', ¬ Filled piece

/-- What is wrong with the first alternative of the line that cannot stand. -/
def LineFault (number : Nat) (line : List Char) (e : ParseError) : Prop :=
  ∃ right, RightPart line right ∧ ∃ before piece,
    FirstAt (fun _ piece => ¬ Filled piece) (right.splitOn '|') before piece ∧
      AlternativeFault number piece e

/-- The error that lines are refused with: that of the first line with a wrong shape, or else that
there is nothing but blank lines, or else that of the first alternative that cannot stand. The first
line has number one, and blank lines are counted as well. -/
inductive Reported (ls : List (List Char)) : ParseError → Prop where
  | shape {above : List (List Char)} {line : List Char} {e : ParseError}
      (first : FirstAt Misshapen ls above line)
      (fault : ShapeFault (HasLine above) (above.length + 1) line e) : Reported ls e
  | empty (blank : ∀ line ∈ ls, AllBlank line) : Reported ls .empty
  | alternative {above : List (List Char)} {line : List Char} {e : ParseError}
      (shaped : ∀ above line below, ls = above ++ line :: below → ¬ Misshapen above line)
      (first : FirstAt (fun _ line => Unfilled line) ls above line)
      (fault : LineFault (above.length + 1) line e) : Reported ls e

theorem exists_alternativeFault_iff :
    (∃ e, AlternativeFault number piece e) ↔ ¬ Filled piece := by
  constructor
  · intro found filled
    obtain ⟨e, fault⟩ := found
    cases fault with
    | empty nothing => exact filled.1 nothing
    | marked _ mark => exact filled.2 mark
  · intro unfilled
    by_cases nothing : tokens piece = []
    · exact ⟨_, .empty nothing⟩
    · have marked := Classical.not_not.1 fun unmarked => unfilled ⟨nothing, unmarked⟩
      exact ⟨_, .marked nothing marked⟩

theorem one_lt_length_tokens_iff {text : List Char} :
    1 < (tokens text).length ↔ ∃ first second others, words text = first :: second :: others := by
  rw [tokens_eq_words, List.length_map]
  match words text with
  | [] => simp
  | [_] => simp
  | first :: second :: others => simp

theorem exists_shapeFault (number : Nat) (misshapen : ¬ Shaped remembered line) :
    ∃ e, ShapeFault remembered number line e := by
  match parts : arrowPieces line with
  | [] => exact absurd parts (arrowPieces_ne_nil line)
  | [whole] =>
      obtain ⟨rfl, free⟩ := arrowPieces_eq_singleton_iff.1 parts
      by_cases continues : ∃ right, ContinuationLine whole right
      · obtain ⟨right, continues⟩ := continues
        have first : ¬ remembered := fun before => misshapen (.inr ⟨before, right, continues⟩)
        exact ⟨_, .noPreviousLeft continues first⟩
      · exact ⟨_, .missingArrow free continues⟩
  | [left, right] =>
      have single : OneArrow line left right := arrowPieces_eq_pair_iff.1 parts
      match found : words left with
      | [] => exact ⟨_, .emptyLeft single (words_eq_nil_iff.1 found)⟩
      | [word] =>
          have trims : TrimsTo left (String.ofList word) := trimsTo_iff.2 (by simpa using found)
          by_cases mark : String.ofList word = epsilon ∨ String.ofList word = endMark
          · exact ⟨_, .reservedSymbol single trims mark⟩
          · obtain ⟨split, before, behind⟩ := single
            have headed : HeadLine line (String.ofList word) right :=
              ⟨left, split, before, behind, trims, not_or.1 mark⟩
            exact absurd (.inl ⟨_, right, headed⟩) misshapen
      | first :: second :: others =>
          have several := one_lt_length_tokens_iff.2 ⟨first, second, others, found⟩
          exact ⟨_, .leftContainsWhitespace single several⟩
  | _ :: _ :: _ :: _ =>
      have many : 2 < (arrowPieces line).length := by rw [parts]; simp
      obtain ⟨left, middle, right, split⟩ := two_lt_length_arrowPieces_iff.1 many
      exact ⟨_, .tooManyArrows split⟩

theorem hasLine_cons_iff : HasLine (line :: ls) ↔ ¬ AllBlank line ∨ HasLine ls := by
  simp [HasLine]

theorem unfilled_iff (part : RightPart line right) :
    Unfilled line ↔ ¬ ∀ piece ∈ right.splitOn '|', Filled piece := by
  constructor
  · intro unfilled filled
    obtain ⟨other, part', piece, cut, fault⟩ := unfilled
    obtain rfl := part.unique part'
    exact fault (filled piece cut)
  · intro unfilled
    obtain ⟨piece, fault⟩ := Classical.not_forall.1 unfilled
    obtain ⟨cut, fault⟩ := Classical.not_imp.1 fault
    exact ⟨right, part, piece, cut, fault⟩

theorem lineFault_iff (part : RightPart line right) :
    LineFault number line e ↔ ∃ before piece,
      FirstAt (fun _ piece => ¬ Filled piece) (right.splitOn '|') before piece ∧
        AlternativeFault number piece e := by
  constructor
  · intro fault
    obtain ⟨other, part', found⟩ := fault
    obtain rfl := part.unique part'
    exact found
  · intro found
    exact ⟨right, part, found⟩

end GrammarText

namespace RuleLine

open Text GrammarText

variable {previous : Option Symbol} {number : Nat} {line piece : List Char}
  {texts : List (List Char)} {rule : RuleLine} {rules : List RuleLine} {e : ParseError}

theorem read_of_shapeFault (fault : ShapeFault (previous.isSome = true) number line e) :
    read previous number line = .error e := by
  cases fault with
  | tooManyArrows split =>
      have many := two_lt_length_arrowPieces_iff.2 ⟨_, _, _, split⟩
      unfold read
      split
      · rename_i parts
        simp [parts] at many
      · rename_i parts
        simp [parts] at many
      · rfl
  | emptyLeft single blank =>
      simp [read, arrowPieces_eq_pair_iff.2 single, words_eq_nil_iff.2 blank]
  | leftContainsWhitespace single several =>
      obtain ⟨first, second, others, found⟩ := one_lt_length_tokens_iff.1 several
      simp [read, arrowPieces_eq_pair_iff.2 single, found]
  | reservedSymbol single trims mark =>
      simp [read, arrowPieces_eq_pair_iff.2 single, trimsTo_iff.1 trims, mark]
  | noPreviousLeft continues first =>
      obtain ⟨parts, found⟩ := continuationLine_iff.1 continues
      have nothing : previous = none := by simpa using first
      simp [read, parts, found, nothing]
  | missingArrow free other =>
      have parts := arrowPieces_eq_singleton_iff.2 ⟨rfl, free⟩
      unfold read
      rw [parts]
      simp only
      split
      · rename_i right _ found
        exact absurd ⟨right, continuationLine_iff.2 ⟨parts, found⟩⟩ other
      · rename_i right found
        exact absurd ⟨right, continuationLine_iff.2 ⟨parts, found⟩⟩ other
      · rfl

theorem exists_read_iff :
    (∃ rule, read previous number line = .ok rule) ↔ Shaped (previous.isSome = true) line := by
  simp only [read_eq_ok_iff]
  constructor
  · intro found
    obtain ⟨rule, -, headed | ⟨remembered, continues⟩⟩ := found
    · exact .inl ⟨_, _, headed⟩
    · exact .inr ⟨by simp [remembered], _, continues⟩
  · intro shaped
    rcases shaped with ⟨head, right, headed⟩ | ⟨remembered, right, continues⟩
    · exact ⟨⟨number, head, right⟩, rfl, .inl headed⟩
    · obtain ⟨head, rfl⟩ := Option.isSome_iff_exists.1 remembered
      exact ⟨⟨number, head, right⟩, rfl, .inr ⟨rfl, continues⟩⟩

theorem read_eq_error_iff :
    read previous number line = .error e ↔ ShapeFault (previous.isSome = true) number line e := by
  constructor
  · intro refused
    have misshapen : ¬ Shaped (previous.isSome = true) line := by
      intro shaped
      have done : ∃ rule, read previous number line = .ok rule := exists_read_iff.2 shaped
      simp [refused] at done
    obtain ⟨e', fault⟩ := exists_shapeFault number misshapen
    have other := read_of_shapeFault fault
    rw [refused] at other
    rwa [Except.error.inj other]
  · exact read_of_shapeFault

theorem readAll_eq_error_iff : readAll previous number texts = .error e ↔
    ∃ above line,
      FirstAt (fun above line => ¬ AllBlank line ∧
        ¬ Shaped (previous.isSome = true ∨ HasLine above) line) texts above line ∧
      ShapeFault (previous.isSome = true ∨ HasLine above) (number + above.length) line e := by
  induction texts generalizing previous number with
  | nil => exact iff_of_false (by simp [readAll]) fun ⟨_, _, first, _⟩ => not_firstAt_nil first
  | cons text rest ih =>
      have none : ¬ HasLine [] := by simp [HasLine]
      rw [exists_firstAt_cons_iff, readAll]
      simp only [hasLine_cons_iff, none, or_false, List.length_nil, List.length_cons, Nat.add_zero,
        ← Nat.add_assoc, Nat.add_right_comm number _ 1]
      split
      case isTrue blank =>
        have blank : AllBlank text := List.all_eq_true.1 blank
        simp only [blank, not_true_eq_false, false_and, false_or, not_false_eq_true, true_and]
        exact ih
      case isFalse solid =>
        have solid : ¬ AllBlank text := fun blank => solid (List.all_eq_true.2 blank)
        rw [bind_eq_error_iff, ← read_eq_error_iff, ← exists_read_iff]
        simp only [solid, not_false_eq_true, true_or, or_true, true_and]
        cases first : read previous number text with
        | error fault => simp
        | ok rule =>
            have later : readAll (some rule.head) (number + 1) rest = .error e ↔ _ := ih
            simp [bind_eq_error_iff, pure, Except.pure, later]

theorem readAll_none_eq_error_iff : readAll none 1 texts = .error e ↔
    ∃ above line, FirstAt Misshapen texts above line ∧
      ShapeFault (HasLine above) (above.length + 1) line e := by
  rw [readAll_eq_error_iff]
  simp only [Option.isSome_none, Bool.false_eq_true, false_or, Nat.add_comm 1]
  rfl

theorem exists_readAll_none_iff : (∃ rules, readAll none 1 texts = .ok rules) ↔
    ∀ above line below, texts = above ++ line :: below → ¬ Misshapen above line := by
  constructor
  · intro done above line below split misshapen
    obtain ⟨rules, done⟩ := done
    rw [split] at done
    obtain ⟨before, found, first⟩ :
        ∃ before found, FirstAt Misshapen (above ++ line :: below) before found :=
      exists_firstAt misshapen
    obtain ⟨e, fault⟩ := exists_shapeFault (before.length + 1) first.holds.2
    rw [readAll_none_eq_error_iff.2 ⟨before, found, first, fault⟩] at done
    contradiction
  · intro shaped
    cases done : readAll none 1 texts with
    | ok rules => exact ⟨rules, rfl⟩
    | error e =>
        obtain ⟨above, line, first, -⟩ := readAll_none_eq_error_iff.1 done
        obtain ⟨below, split⟩ := first.listed
        exact absurd first.holds (shaped above line below split)

theorem rightPart_of_read (done : read previous number line = .ok rule) :
    RightPart line rule.right ∧ rule.line = number := by
  obtain ⟨numbered, headed | ⟨-, continues⟩⟩ := read_eq_ok_iff.1 done
  · exact ⟨.inl ⟨_, headed⟩, numbered⟩
  · exact ⟨.inr continues, numbered⟩

theorem readAlternative_eq_error_iff :
    readAlternative number piece = .error e ↔ AlternativeFault number piece e := by
  rw [readAlternative, ← tokens_eq_words]
  simp only [List.isEmpty_iff]
  constructor
  · intro refused
    split at refused
    case isTrue nothing =>
      obtain rfl := Except.error.inj refused
      exact .empty nothing
    case isFalse something =>
      split at refused
      case isTrue mark =>
        obtain rfl := Except.error.inj refused
        exact .marked something mark
      case isFalse => contradiction
  · intro fault
    cases fault with
    | empty nothing => rw [if_pos nothing]
    | marked something mark => rw [if_neg something, if_pos mark]

theorem alternatives_eq_error_iff : rule.alternatives = .error e ↔
    ∃ before piece, FirstAt (fun _ piece => ¬ Filled piece) (rule.right.splitOn '|') before piece ∧
      AlternativeFault rule.line piece e := by
  have fault (e : ParseError) (piece : List Char) :
      (do let symbols ← readAlternative rule.line piece; return (rule.head, symbols)) =
          Except.error e ↔ AlternativeFault rule.line piece e := by
    rw [bind_eq_error_iff, readAlternative_eq_error_iff]
    simp [pure, Except.pure]
  rw [alternatives, mapM_eq_error_iff, pieces_eq_splitOn]
  simp only [fault, exists_alternativeFault_iff]

theorem mapM_alternatives_eq_error_iff (shaped : readAll previous number texts = .ok rules) :
    rules.mapM alternatives = .error e ↔ ∃ above line,
      FirstAt (fun _ line => Unfilled line) texts above line ∧
        LineFault (number + above.length) line e := by
  induction texts generalizing previous number rules with
  | nil =>
      obtain rfl := Except.ok.inj shaped
      exact iff_of_false (by simp [pure, Except.pure]) fun ⟨_, _, first, _⟩ => not_firstAt_nil first
  | cons text rest ih =>
      rw [exists_firstAt_cons_iff]
      simp only [List.length_nil, List.length_cons, Nat.add_zero, ← Nat.add_assoc,
        Nat.add_right_comm number _ 1]
      rw [readAll] at shaped
      split at shaped
      case isTrue blank =>
        have filled : ¬ Unfilled text := by
          rintro ⟨_, part, -⟩
          exact not_rightPart_of_allBlank (List.all_eq_true.1 blank) part
        simp only [filled, false_and, false_or, not_false_eq_true, true_and]
        exact ih shaped
      case isFalse solid =>
        obtain ⟨rule, first, shaped⟩ := bind_eq_ok_iff.1 shaped
        obtain ⟨others, later, shaped⟩ := bind_eq_ok_iff.1 shaped
        obtain rfl := pure_eq_ok_iff.1 shaped
        obtain ⟨part, rfl⟩ := rightPart_of_read first
        have unfilled : Unfilled text ↔ ¬ ∃ own, rule.alternatives = .ok own := by
          rw [exists_alternatives_iff]
          exact unfilled_iff part
        have fault : rule.alternatives = .error e ↔ LineFault rule.line text e := by
          rw [alternatives_eq_error_iff, lineFault_iff part]
        rw [List.mapM_cons, bind_eq_error_iff, ← ih later, ← fault, unfilled]
        cases made : rule.alternatives with
        | error e' => simp
        | ok own => simp [bind_eq_error_iff, pure, Except.pure]

theorem eq_nil_iff_of_readAll (shaped : readAll previous number texts = .ok rules) :
    rules = [] ↔ ∀ line ∈ texts, AllBlank line := by
  have reads := (readFrom_of_readAll shaped).eq_nil_iff
  rw [List.map_eq_nil_iff] at reads
  rw [← reads, withoutBlank, List.filter_eq_nil_iff]
  simp [AllBlank]

end RuleLine

namespace Grammar

open Text GrammarText

variable {text : String} {e : ParseError}

/-- The shapes of the lines come first, then whether there is a rule at all, and the alternatives
come last. -/
theorem parse_eq_error_iff_readAll : parse text = .error e ↔
    RuleLine.readAll none 1 (pieces '\n' text.toList) = .error e ∨
      ∃ rules, RuleLine.readAll none 1 (pieces '\n' text.toList) = .ok rules ∧
        (rules = [] ∧ e = .empty ∨ rules.mapM RuleLine.alternatives = .error e) := by
  rw [parse, bind_eq_error_iff]
  refine or_congr_right (exists_congr fun rules => and_congr_right fun _ => ?_)
  cases rules with
  | nil =>
      have refused : (throw .empty : Except ParseError Grammar) = .error e ↔ e = .empty := by
        simp [throw, throwThe, MonadExceptOf.throw, eq_comm]
      simpa [pure, Except.pure] using refused
  | cons first others =>
      rw [bind_eq_error_iff]
      simp [pure, Except.pure]

/-- A text is refused with the error that is reported for its lines, and with no other. -/
theorem parse_eq_error_iff (text : String) (e : ParseError) :
    parse text = .error e ↔ Reported (text.toList.splitOn '\n') e := by
  rw [parse_eq_error_iff_readAll, pieces_eq_splitOn]
  constructor
  · intro refused
    rcases refused with misshapen | ⟨rules, shaped, ⟨nothing, rfl⟩ | unfilled⟩
    · obtain ⟨above, line, first, fault⟩ := RuleLine.readAll_none_eq_error_iff.1 misshapen
      exact .shape first fault
    · exact .empty ((RuleLine.eq_nil_iff_of_readAll shaped).1 nothing)
    · obtain ⟨above, line, first, fault⟩ :=
        (RuleLine.mapM_alternatives_eq_error_iff shaped).1 unfilled
      rw [Nat.add_comm] at fault
      exact .alternative (RuleLine.exists_readAll_none_iff.1 ⟨rules, shaped⟩) first fault
  · intro reported
    cases reported with
    | shape first fault =>
        exact .inl (RuleLine.readAll_none_eq_error_iff.2 ⟨_, _, first, fault⟩)
    | empty blank =>
        have shaped : ∀ above line below, text.toList.splitOn '\n' = above ++ line :: below →
            ¬ Misshapen above line := by
          intro above line below split misshapen
          rw [split] at blank
          exact misshapen.1 (blank line (by simp))
        obtain ⟨rules, done⟩ := RuleLine.exists_readAll_none_iff.2 shaped
        exact .inr ⟨rules, done, .inl ⟨(RuleLine.eq_nil_iff_of_readAll done).2 blank, rfl⟩⟩
    | alternative shaped first fault =>
        obtain ⟨rules, done⟩ := RuleLine.exists_readAll_none_iff.2 shaped
        rw [Nat.add_comm] at fault
        have unfilled := (RuleLine.mapM_alternatives_eq_error_iff done).2 ⟨_, _, first, fault⟩
        exact .inr ⟨rules, done, .inr unfilled⟩

-- The empty alternative of the first line is hidden by the line that has no arrow.
example : parse "S -> a |\n\n | b\nc\n" = .error (.missingArrow 4) := rfl

end Grammar

end Predictive
