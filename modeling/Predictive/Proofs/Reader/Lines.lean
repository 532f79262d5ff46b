import Predictive.Proofs.Reader.Format

set_option autoImplicit false

namespace Predictive

namespace GrammarText

open Text

/-- What the lines give, where `previous` is the head of the line above the first of them. -/
inductive ReadFrom : Option Symbol → List (List Char) → List (Symbol × List Char) → Prop where
  | nil (previous : Option Symbol) : ReadFrom previous [] []
  | headed {previous : Option Symbol} {line : List Char} {rest : List (List Char)} {head : Symbol}
      {right : List Char} {given : List (Symbol × List Char)} (first : HeadLine line head right)
      (later : ReadFrom (some head) rest given) :
      ReadFrom previous (line :: rest) ((head, right) :: given)
  | continued {head : Symbol} {line : List Char} {rest : List (List Char)} {right : List Char}
      {given : List (Symbol × List Char)} (first : ContinuationLine line right)
      (later : ReadFrom (some head) rest given) :
      ReadFrom (some head) (line :: rest) ((head, right) :: given)

variable {previous : Option Symbol} {line : List Char} {ls above : List (List Char)} {head : Symbol}
  {right : List Char} {given : List (Symbol × List Char)}

/-- Below `above` a line has the right part, for the last head down to this line. -/
def GivesBelow (above ls : List (List Char)) (head : Symbol) (right : List Char) : Prop :=
  ∃ between line below, ls = between ++ line :: below ∧ RightPart line right ∧
    LastHead (above ++ between ++ [line]) head

theorem not_givesBelow_nil : ¬ GivesBelow above [] head right := by
  rintro ⟨between, line, below, split, -⟩
  simp at split

theorem givesBelow_cons_iff : GivesBelow above (line :: ls) head right ↔
    (RightPart line right ∧ LastHead (above ++ [line]) head) ∨
      GivesBelow (above ++ [line]) ls head right := by
  constructor
  · rintro ⟨between, found, below, split, part, last⟩
    cases between with
    | nil =>
        obtain ⟨rfl, -⟩ := List.cons.inj split
        exact .inl ⟨part, by simpa using last⟩
    | cons first between =>
        obtain ⟨rfl, rfl⟩ := List.cons.inj split
        exact .inr ⟨between, found, below, rfl, part, by simpa using last⟩
  · rintro (⟨part, last⟩ | ⟨between, found, below, rfl, part, last⟩)
    · exact ⟨[], line, ls, rfl, part, by simpa using last⟩
    · exact ⟨line :: between, found, below, rfl, part, by simpa using last⟩

theorem mem_cons_iff_givesBelow {part : List Char} {owner : Symbol} (here : RightPart line part)
    (last : LastHead (above ++ [line]) owner)
    (later : (head, right) ∈ given ↔ GivesBelow (above ++ [line]) ls head right) :
    (head, right) ∈ (owner, part) :: given ↔ GivesBelow above (line :: ls) head right := by
  rw [List.mem_cons, later, givesBelow_cons_iff]
  refine or_congr_left ⟨fun same => ?_, fun found => ?_⟩
  · obtain ⟨rfl, rfl⟩ := Prod.mk.inj same
    exact ⟨here, last⟩
  · rw [here.unique found.1, last.unique found.2]

/-- What the reader finds does not depend on how it goes from line to line. -/
theorem ReadFrom.mem_iff (reads : ReadFrom previous ls given)
    (remembered : ∀ owner ∈ previous, LastHead above owner) :
    (head, right) ∈ given ↔ GivesBelow above ls head right := by
  induction reads generalizing above with
  | nil => exact iff_of_false List.not_mem_nil not_givesBelow_nil
  | headed first _ ih =>
      have last := first.lastHead above
      refine mem_cons_iff_givesBelow (.inl ⟨_, first⟩) last (ih fun owner same => ?_)
      rwa [← Option.some.inj same]
  | continued first _ ih =>
      have last := (remembered _ rfl).append first.1
      refine mem_cons_iff_givesBelow (.inr first) last (ih fun owner same => ?_)
      rwa [← Option.some.inj same]

theorem ReadFrom.mem_iff_gives (reads : ReadFrom none ls given) :
    (head, right) ∈ given ↔ Gives ls head right := by
  have nothing : ∀ owner ∈ (none : Option Symbol), LastHead [] owner := by simp
  exact reads.mem_iff nothing

theorem ReadFrom.exists_mem (reads : ReadFrom previous ls given) (inside : line ∈ ls)
    (part : RightPart line right) : ∃ head, (head, right) ∈ given := by
  have here {found : List Char} (other : RightPart line found) : found = right := other.unique part
  induction reads with
  | nil => contradiction
  | headed first _ ih =>
      rcases List.mem_cons.1 inside with rfl | inside
      · exact ⟨_, List.mem_cons.2 (.inl (by rw [here (.inl ⟨_, first⟩)]))⟩
      · exact (ih inside).imp fun _ => List.mem_cons_of_mem _
  | continued first _ ih =>
      rcases List.mem_cons.1 inside with rfl | inside
      · exact ⟨_, List.mem_cons.2 (.inl (by rw [here (.inr first)]))⟩
      · exact (ih inside).imp fun _ => List.mem_cons_of_mem _

theorem ReadFrom.firstHead (reads : ReadFrom none ls ((head, right) :: given)) :
    FirstHead ls head := by
  cases reads with
  | headed first => exact ⟨_, _, _, rfl, first⟩

theorem ReadFrom.exists_rightPart (reads : ReadFrom previous ls given) :
    ∀ line ∈ ls, ∃ right, RightPart line right := by
  induction reads with
  | nil => simp
  | headed first _ ih => exact List.forall_mem_cons.2 ⟨⟨_, .inl ⟨_, first⟩⟩, ih⟩
  | continued first _ ih => exact List.forall_mem_cons.2 ⟨⟨_, .inr first⟩, ih⟩

theorem ReadFrom.withoutBlank_eq (reads : ReadFrom previous ls given) : withoutBlank ls = ls := by
  apply List.filter_eq_self.2
  intro line inside
  obtain ⟨right, part⟩ := reads.exists_rightPart line inside
  rw [Bool.not_eq_true', ← Bool.not_eq_true]
  intro blank
  exact not_rightPart_of_allBlank (List.all_eq_true.1 blank) part

theorem ReadFrom.eq_nil_iff (reads : ReadFrom previous ls given) : ls = [] ↔ given = [] := by
  cases reads <;> simp

/-- The line is for a head of its own, or it goes on with one above it, if there is a line above. -/
def Shaped (above : Prop) (line : List Char) : Prop :=
  (∃ head right, HeadLine line head right) ∨ above ∧ ∃ right, ContinuationLine line right

theorem Shaped.imp {above above' : Prop} (shaped : Shaped above line) (more : above → above') :
    Shaped above' line := Or.imp_right (And.imp_left more) shaped

theorem forall_split_cons_iff {P : List (List Char) → List Char → Prop} :
    (∀ above found below, line :: ls = above ++ found :: below → P above found) ↔
      P [] line ∧ ∀ above found below, ls = above ++ found :: below → P (line :: above) found := by
  constructor
  · intro each
    exact ⟨each [] line ls rfl, fun above found below split =>
      each (line :: above) found below (congrArg (line :: ·) split)⟩
  · rintro ⟨first, later⟩ above found below split
    cases above with
    | nil =>
        obtain ⟨rfl, -⟩ := List.cons.inj split
        exact first
    | cons other above =>
        obtain ⟨rfl, rest⟩ := List.cons.inj split
        exact later above found below rest

theorem exists_readFrom_iff : (∃ given, ReadFrom previous ls given) ↔
    ∀ above line below, ls = above ++ line :: below →
      Shaped (previous.isSome ∨ above ≠ []) line := by
  induction ls generalizing previous with
  | nil => exact iff_of_true ⟨[], .nil previous⟩ (by simp)
  | cons line ls ih =>
      -- Behind the first line some head is remembered, and it does not matter which.
      have rest (head : Symbol) : (∃ given, ReadFrom (some head) ls given) ↔
          ∀ above found below, ls = above ++ found :: below →
            Shaped (previous.isSome ∨ line :: above ≠ []) found := by
        rw [ih]
        simp
      rw [forall_split_cons_iff]
      constructor
      · rintro ⟨given, reads⟩
        cases reads with
        | headed first later => exact ⟨.inl ⟨_, _, first⟩, (rest _).1 ⟨_, later⟩⟩
        | continued first later => exact ⟨.inr ⟨.inl rfl, _, first⟩, (rest _).1 ⟨_, later⟩⟩
      · rintro ⟨⟨head, right, first⟩ | ⟨remembered, right, first⟩, shaped⟩
        · obtain ⟨given, later⟩ := (rest head).2 shaped
          exact ⟨_, .headed first later⟩
        · obtain ⟨head, rfl⟩ := Option.isSome_iff_exists.1 (remembered.resolve_right (by simp))
          obtain ⟨given, later⟩ := (rest head).2 shaped
          exact ⟨_, .continued first later⟩

theorem ReadFrom.accepted (reads : ReadFrom none ls given) (some : given ≠ [])
    (filled : ∀ pair ∈ given, ∀ piece ∈ pair.2.splitOn '|',
      tokens piece ≠ [] ∧ endMark ∉ tokens piece) : Accepted ls where
  inhabited nothing := some (reads.eq_nil_iff.1 nothing)
  shaped above line below split := by
    have shape := exists_readFrom_iff.1 ⟨_, reads⟩ above line below split
    exact shape.imp fun before => before.resolve_left (by simp)
  filled line inside right part := by
    obtain ⟨head, listed⟩ := reads.exists_mem inside part
    exact filled _ listed

end GrammarText

namespace RuleLine

open Text GrammarText

variable {previous : Option Symbol} {number : Nat} {line : List Char} {texts : List (List Char)}
  {rule : RuleLine} {rules : List RuleLine}

theorem read_eq_ok_iff : read previous number line = .ok rule ↔ rule.line = number ∧
    (HeadLine line rule.head rule.right ∨
      previous = some rule.head ∧ ContinuationLine line rule.right) := by
  rw [headLine_iff, continuationLine_iff]
  constructor
  · intro done
    unfold read at done
    split at done
    · rename_i left right parts
      split at done
      · contradiction
      · rename_i word single
        simp only at done
        split at done
        · contradiction
        · rename_i proper
          obtain rfl := Except.ok.inj done
          exact ⟨rfl, .inl ⟨left, parts, by rw [single, String.toList_ofList], not_or.1 proper⟩⟩
      · contradiction
    · rename_i whole parts
      split at done
      · rename_i right head found
        obtain rfl := Except.ok.inj done
        obtain ⟨rfl, -⟩ := arrowPieces_eq_singleton_iff.1 parts
        exact ⟨rfl, .inr ⟨rfl, parts, found⟩⟩
      · contradiction
      · contradiction
    · contradiction
  · obtain ⟨_, head, right⟩ := rule
    rintro ⟨rfl, ⟨left, parts, single, proper⟩ | ⟨rfl, parts, found⟩⟩
    · simp only [read, parts, single, String.ofList_toList]
      rw [if_neg (not_or.2 proper)]
    · simp only [read, parts, found]

/-- What a line gives, without its number. -/
def given (rule : RuleLine) : Symbol × List Char := (rule.head, rule.right)

theorem readFrom_of_readAll (done : readAll previous number texts = .ok rules) :
    ReadFrom previous (withoutBlank texts) (rules.map given) := by
  induction texts generalizing previous number rules with
  | nil =>
      obtain rfl := Except.ok.inj done
      exact .nil previous
  | cons text rest ih =>
      rw [readAll] at done
      split at done
      case isTrue blank =>
        rw [withoutBlank, List.filter_cons_of_neg (by simp [blank])]
        exact ih done
      case isFalse solid =>
        rw [withoutBlank, List.filter_cons_of_pos (by simpa using solid)]
        obtain ⟨rule, first, done⟩ := bind_eq_ok_iff.1 done
        obtain ⟨others, later, done⟩ := bind_eq_ok_iff.1 done
        obtain rfl := pure_eq_ok_iff.1 done
        rcases (read_eq_ok_iff.1 first).2 with headed | ⟨rfl, continued⟩
        · exact .headed headed (ih later)
        · exact .continued continued (ih later)

theorem exists_readAll {given : List (Symbol × List Char)}
    (reads : ReadFrom previous (withoutBlank texts) given) (number : Nat) :
    ∃ rules, readAll previous number texts = .ok rules := by
  induction texts generalizing previous number given with
  | nil => exact ⟨[], rfl⟩
  | cons text rest ih =>
      rw [readAll]
      split
      case isTrue blank =>
        rw [withoutBlank, List.filter_cons_of_neg (by simp [blank])] at reads
        exact ih reads (number + 1)
      case isFalse solid =>
        rw [withoutBlank, List.filter_cons_of_pos (by simpa using solid)] at reads
        have step : ∃ rule given, read previous number text = .ok rule ∧
            ReadFrom (some rule.head) (withoutBlank rest) given := by
          cases reads with
          | headed first later =>
              exact ⟨⟨number, _, _⟩, _, read_eq_ok_iff.2 ⟨rfl, .inl first⟩, later⟩
          | continued first later =>
              exact ⟨⟨number, _, _⟩, _, read_eq_ok_iff.2 ⟨rfl, .inr ⟨rfl, first⟩⟩, later⟩
        obtain ⟨rule, given, first, later⟩ := step
        obtain ⟨rules, done⟩ := ih later (number + 1)
        exact ⟨rule :: rules,
          bind_eq_ok_iff.2 ⟨rule, first, bind_eq_ok_iff.2 ⟨rules, done, rfl⟩⟩⟩

end RuleLine

end Predictive
