set_option autoImplicit false

namespace Predictive.Text

/-- The parts of `text` between the occurrences of `mark`: one more than it has occurrences. -/
def pieces (mark : Char) : List Char → List (List Char)
  | [] => [[]]
  | c :: rest =>
    if c = mark then [] :: pieces mark rest else (pieces mark rest).modifyHead (c :: ·)

theorem pieces_ne_nil (mark : Char) (text : List Char) : pieces mark text ≠ [] := by
  cases text with
  | nil => simp [pieces]
  | cons c rest =>
      have := pieces_ne_nil mark rest
      simp only [pieces]
      split
      case isTrue => simp
      case isFalse => simpa using this

theorem not_mem_of_mem_pieces {mark : Char} {text piece : List Char}
    (inside : piece ∈ pieces mark text) : mark ∉ piece := by
  induction text generalizing piece with
  | nil => simp_all [pieces]
  | cons c rest ih =>
      simp only [pieces] at inside
      split at inside
      case isTrue =>
        rcases List.mem_cons.1 inside with rfl | inside
        · simp
        · exact ih inside
      case isFalse apart =>
        cases parts : pieces mark rest with
        | nil => exact (pieces_ne_nil mark rest parts).elim
        | cons first others =>
          rw [parts, List.modifyHead_cons] at inside
          rcases List.mem_cons.1 inside with rfl | inside
          · have := ih (show first ∈ pieces mark rest by simp [parts])
            grind
          · exact ih (by simp [parts, inside])

theorem intercalate_pieces (mark : Char) (text : List Char) :
    [mark].intercalate (pieces mark text) = text := by
  induction text with
  | nil => simp [pieces]
  | cons c rest ih =>
      cases parts : pieces mark rest with
      | nil => exact (pieces_ne_nil mark rest parts).elim
      | cons first others =>
        simp only [pieces, parts]
        rw [parts] at ih
        split
        case isTrue same => simp [ih, same]
        case isFalse =>
          cases others with
          | nil => simp_all
          | cons => simp_all

/-- The parts of `text` between the arrows `->`, which are found from the left. -/
def arrowPieces : List Char → List (List Char)
  | [] => [[]]
  | '-' :: '>' :: rest => [] :: arrowPieces rest
  | c :: rest => (arrowPieces rest).modifyHead (c :: ·)

end Predictive.Text
