import Predictive.Proofs.FirstFollow.Stored
import Predictive.Proofs.Grammar.Reading
import Predictive.Proofs.Text.Cutting

set_option autoImplicit false

/-
The text format of a grammar, by what its lines look like and not by how they are read. A line stands
for its head or for the head of the last line above it that has one, its right part holds
alternatives with `|` between them, and a grammar is what the alternatives of all lines denote.
-/

namespace Predictive

namespace GrammarText

open Text

def withoutBlank (ls : List (List Char)) : List (List Char) :=
  ls.filter fun line => !line.all isBlank

/-- The lines that are not blank. A carriage return is white space, so one in front of the end of a
line is a part of the line that does not count. -/
def lines (text : String) : List (List Char) := withoutBlank (text.toList.splitOn '\n')

/-- What stands between white space. -/
def tokens (text : List Char) : List Symbol :=
  ((text.splitOnP isBlank).filter fun word => !word.isEmpty).map String.ofList

/-- The text is one token with white space around it. -/
def TrimsTo (text : List Char) (token : Symbol) : Prop :=
  token.toList ≠ [] ∧ Solid token.toList ∧
    ∃ front back, AllBlank front ∧ AllBlank back ∧ text = front ++ token.toList ++ back

/-- A line with one arrow, between a head that is no mark and the right part. -/
def HeadLine (line : List Char) (head : Symbol) (right : List Char) : Prop :=
  ∃ left, line = left ++ arrow ++ right ∧ ¬ arrow <:+: left ∧ ¬ arrow <:+: right ∧
    TrimsTo left head ∧ head ≠ epsilon ∧ head ≠ endMark

/-- A line without an arrow that begins with a bar, behind which stands the right part. -/
def ContinuationLine (line right : List Char) : Prop :=
  ¬ arrow <:+: line ∧ ∃ front, AllBlank front ∧ line = front ++ '|' :: right

def RightPart (line right : List Char) : Prop :=
  (∃ head, HeadLine line head right) ∨ ContinuationLine line right

variable {line : List Char} {above below ls : List (List Char)} {head head' : Symbol}
  {right right' : List Char}

/-- One of the lines is for this head. -/
def IsHead (ls : List (List Char)) (head : Symbol) : Prop :=
  ∃ line ∈ ls, ∃ right, HeadLine line head right

/-- The first line is for this head. -/
def FirstHead (ls : List (List Char)) (head : Symbol) : Prop :=
  ∃ line below right, ls = line :: below ∧ HeadLine line head right

/-- The last line with an arrow is for this head. -/
def LastHead (ls : List (List Char)) (head : Symbol) : Prop :=
  ∃ above line below right, ls = above ++ line :: below ∧ HeadLine line head right ∧
    ∀ between ∈ below, ¬ arrow <:+: between

/-- A line has the right part, for the last head down to this line. -/
def Gives (ls : List (List Char)) (head : Symbol) (right : List Char) : Prop :=
  ∃ above line below, ls = above ++ line :: below ∧ RightPart line right ∧
    LastHead (above ++ [line]) head

/-- The tokens are those of an alternative of the head. -/
def HasAlternative (ls : List (List Char)) (head : Symbol) (symbols : List Symbol) : Prop :=
  ∃ right, Gives ls head right ∧ ∃ piece ∈ right.splitOn '|', symbols = tokens piece

/-- The body is the normal form of an alternative of the head. -/
def HasBody (ls : List (List Char)) (head : Symbol) (b : Body) : Prop :=
  ∃ symbols, HasAlternative ls head symbols ∧ b = Body.normalize symbols

/-- Lines of the format. -/
structure Accepted (ls : List (List Char)) : Prop where
  inhabited : ls ≠ []
  shaped : ∀ above line below, ls = above ++ line :: below →
    (∃ head right, HeadLine line head right) ∨ above ≠ [] ∧ ∃ right, ContinuationLine line right
  filled : ∀ line ∈ ls, ∀ right, RightPart line right → ∀ piece ∈ right.splitOn '|',
    tokens piece ≠ [] ∧ endMark ∉ tokens piece

/-- The grammar that the lines are the text of, with nothing stored beside its rules. -/
structure Denotes (ls : List (List Char)) (g : Grammar) : Prop where
  named : g.Named
  start : FirstHead ls g.start
  names : ∀ name, name ∈ g.names ↔ IsHead ls name
  bodies : ∀ name b, b ∈ g.bodies name ↔ HasBody ls name b
  terminals : ∀ s, s ∈ g.terminals ↔
    (∃ name symbols, HasAlternative ls name symbols ∧ s ∈ symbols) ∧ s ≠ epsilon ∧ ¬ IsHead ls s
  unstored : g.firstFollowValid = false ∧ ∀ name, g.storedFirst name = ∅ ∧
    g.storedFollow name = ∅ ∧ g.storedNullable name = false

theorem tokens_eq_words (text : List Char) : tokens text = (words text).map String.ofList := by
  rw [tokens, words_eq_splitOnP]

theorem trimsTo_iff {text : List Char} {token : Symbol} :
    TrimsTo text token ↔ words text = [token.toList] := words_eq_singleton_iff.symm

theorem headLine_iff : HeadLine line head right ↔ ∃ left, arrowPieces line = [left, right] ∧
    words left = [head.toList] ∧ RuleLine.Proper head := by
  simp only [HeadLine, arrowPieces_eq_pair_iff, trimsTo_iff, RuleLine.Proper, and_assoc]

theorem continuationLine_iff : ContinuationLine line right ↔
    arrowPieces line = [line] ∧ line.dropWhile isBlank = '|' :: right := by
  rw [ContinuationLine, arrowPieces_eq_singleton_iff, dropWhile_isBlank_eq_cons_iff (by decide)]
  simp only [true_and]

theorem HeadLine.arrow_infix (headed : HeadLine line head right) : arrow <:+: line := by
  obtain ⟨left, rfl, -⟩ := headed
  exact List.infix_append left arrow right

theorem HeadLine.unique (one : HeadLine line head right) (other : HeadLine line head' right') :
    head = head' ∧ right = right' := by
  obtain ⟨left, parts, single, -⟩ := headLine_iff.1 one
  obtain ⟨left', parts', single', -⟩ := headLine_iff.1 other
  obtain ⟨rfl, rfl⟩ : left = left' ∧ right = right' := by simpa [parts] using parts'
  rw [single] at single'
  exact ⟨String.toList_injective (List.cons.inj single').1, rfl⟩

theorem RightPart.unique (one : RightPart line right) (other : RightPart line right') :
    right = right' := by
  rcases one with ⟨head, one⟩ | one
  · rcases other with ⟨head', other⟩ | other
    · exact (one.unique other).2
    · exact absurd one.arrow_infix other.1
  · rcases other with ⟨head', other⟩ | other
    · exact absurd other.arrow_infix one.1
    · have found := (continuationLine_iff.1 one).2
      rw [(continuationLine_iff.1 other).2] at found
      exact (List.cons.inj found).2.symm

theorem not_rightPart_of_allBlank (blank : AllBlank line) : ¬ RightPart line right := by
  intro part
  rcases part with ⟨head, headed⟩ | ⟨-, front, -, rfl⟩
  · have dash : '-' ∈ line := headed.arrow_infix.subset (by simp [arrow])
    exact absurd (blank _ dash) (by decide)
  · exact absurd (blank '|' (by simp)) (by decide)

theorem HeadLine.lastHead (headed : HeadLine line head right) (above : List (List Char)) :
    LastHead (above ++ [line]) head := ⟨above, line, [], right, rfl, headed, by simp⟩

theorem LastHead.append (last : LastHead ls head) (free : ¬ arrow <:+: line) :
    LastHead (ls ++ [line]) head := by
  obtain ⟨above, first, below, right, rfl, headed, between⟩ := last
  refine ⟨above, first, below ++ [line], right, by simp, headed, ?_⟩
  exact List.forall_mem_append.2 ⟨between, by simpa using free⟩

theorem LastHead.unique (one : LastHead ls head) (other : LastHead ls head') : head = head' := by
  obtain ⟨above, line, below, right, rfl, headed, between⟩ := one
  obtain ⟨above', line', below', right', same, headed', between'⟩ := other
  rcases List.append_eq_append_iff.1 same with ⟨more, -, split⟩ | ⟨more, -, split⟩
  · cases more with
    | nil =>
        obtain ⟨rfl, -⟩ := List.cons.inj split
        exact (headed.unique headed').1
    | cons first more =>
        obtain ⟨rfl, rfl⟩ := List.cons.inj split
        exact absurd headed'.arrow_infix (between line' (by simp))
  · cases more with
    | nil =>
        obtain ⟨rfl, -⟩ := List.cons.inj split
        exact (headed.unique headed').1
    | cons first more =>
        obtain ⟨rfl, rfl⟩ := List.cons.inj split
        exact absurd headed.arrow_infix (between' line (by simp))

end GrammarText

end Predictive
