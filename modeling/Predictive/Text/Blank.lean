set_option autoImplicit false

namespace Predictive.Text

/-- The code points with the property White_Space, as first and last of each range. -/
def blankRanges : List (Nat × Nat) :=
  [(0x09, 0x0D), (0x20, 0x20), (0x85, 0x85), (0xA0, 0xA0), (0x1680, 0x1680),
   (0x2000, 0x200A), (0x2028, 0x2029), (0x202F, 0x202F), (0x205F, 0x205F), (0x3000, 0x3000)]

def isBlank (c : Char) : Bool :=
  blankRanges.any fun range => range.1 ≤ c.toNat && c.toNat ≤ range.2

/-- The longest stretches of `text` without a blank, in order. -/
def words : List Char → List (List Char)
  | [] => []
  | c :: rest =>
    if isBlank c then words rest
    else match rest with
      | [] => [[c]]
      | next :: _ => if isBlank next then [c] :: words rest else (words rest).modifyHead (c :: ·)

theorem words_cons_blank {c : Char} {rest : List Char} (blank : isBlank c = true) :
    words (c :: rest) = words rest := by
  simp [words, blank]

theorem words_cons_of_not_blank {c : Char} {rest : List Char} (black : isBlank c = false) :
    words (c :: rest) =
      (c :: rest.takeWhile fun d => !isBlank d) :: words (rest.dropWhile fun d => !isBlank d) := by
  induction rest generalizing c with
  | nil => simp [words, black]
  | cons next rest ih =>
      cases mark : isBlank next with
      | true => simp [words, black, mark]
      | false =>
        have step : words (c :: next :: rest) = (words (next :: rest)).modifyHead (c :: ·) := by
          rw [words]
          simp [black, mark]
        rw [step, ih mark]
        simp [mark]

theorem solid_of_mem_words {text word : List Char} (inside : word ∈ words text) :
    word ≠ [] ∧ ∀ c ∈ word, isBlank c = false := by
  match text with
  | [] => simp [words] at inside
  | c :: rest =>
    cases mark : isBlank c with
    | true =>
      rw [words_cons_blank mark] at inside
      exact solid_of_mem_words inside
    | false =>
      rw [words_cons_of_not_blank mark] at inside
      rcases List.mem_cons.1 inside with rfl | inside
      · refine ⟨List.cons_ne_nil _ _, fun d taken => ?_⟩
        rcases List.mem_cons.1 taken with rfl | taken
        · exact mark
        · have solid := List.all_takeWhile (p := fun d => !isBlank d) (l := rest)
          simpa using List.all_eq_true.1 solid d taken
      · exact solid_of_mem_words inside
termination_by text.length
decreasing_by
  all_goals
    have shorter := (List.dropWhile_suffix (l := rest) fun d => !isBlank d).length_le
    simp only [List.length_cons]
    omega

end Predictive.Text
