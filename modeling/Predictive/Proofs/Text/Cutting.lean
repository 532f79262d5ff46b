import Predictive.Text.Blank
import Predictive.Text.Pieces

set_option autoImplicit false

namespace Predictive.Text

/-- The arrow between a head and its alternatives. -/
def arrow : List Char := ['-', '>']

/-- All characters are white space. -/
def AllBlank (text : List Char) : Prop := ∀ c ∈ text, isBlank c = true

/-- No character is white space. -/
def Solid (text : List Char) : Prop := ∀ c ∈ text, isBlank c = false

variable {text left right word piece : List Char} {c : Char}

theorem pieces_eq_splitOn (mark : Char) (text : List Char) :
    pieces mark text = text.splitOn mark := by
  induction text with
  | nil => rfl
  | cons c rest ih =>
      rw [pieces, ih]
      simp only [List.splitOn, List.splitOnP_cons_eq_if_modifyHead, beq_iff_eq]

theorem isInfix_intercalate {parts : List (List Char)} (inside : piece ∈ parts)
    (between : List Char) : piece <:+: between.intercalate parts := by
  apply List.infix_of_mem_flatten
  induction parts with
  | nil => contradiction
  | cons first rest ih =>
      cases rest with
      | nil => exact inside
      | cons second others =>
          rcases List.mem_cons.1 inside with rfl | later
          · exact List.mem_cons_self
          · exact List.mem_cons_of_mem _ (List.mem_cons_of_mem _ (ih later))

theorem mem_of_mem_intercalate {between : List Char} {parts : List (List Char)}
    (inside : c ∈ between.intercalate parts) : c ∈ between ∨ ∃ part ∈ parts, c ∈ part := by
  induction parts with
  | nil => contradiction
  | cons first rest ih =>
      cases rest with
      | nil => exact .inr ⟨first, List.mem_cons_self, by simpa using inside⟩
      | cons second others =>
          rw [List.intercalate_cons_cons, List.mem_append, List.mem_append] at inside
          rcases inside with (inside | inside) | inside
          · exact .inr ⟨first, List.mem_cons_self, inside⟩
          · exact .inl inside
          · exact (ih inside).imp_right fun ⟨part, among, within⟩ =>
              ⟨part, List.mem_cons_of_mem first among, within⟩

theorem intercalate_append {between : List Char} {front back : List (List Char)}
    (some : front ≠ []) (more : back ≠ []) : between.intercalate (front ++ back) =
      between.intercalate front ++ between ++ between.intercalate back := by
  induction front with
  | nil => contradiction
  | cons first rest ih =>
      rw [List.cons_append, List.intercalate_cons_of_ne_nil (by simp [more])]
      cases rest with
      | nil => simp
      | cons second others =>
          rw [ih (by simp), List.intercalate_cons_cons]
          simp only [List.append_assoc]

theorem intercalate_flatten {between : List Char} {groups : List (List (List Char))}
    (each : ∀ group ∈ groups, group ≠ []) :
    between.intercalate groups.flatten = between.intercalate (groups.map between.intercalate) := by
  induction groups with
  | nil => rfl
  | cons group groups ih =>
      obtain ⟨some, others⟩ := List.forall_mem_cons.1 each
      cases groups with
      | nil => simp
      | cons next groups =>
          have more : (next :: groups).flatten ≠ [] := by
            simp [(List.forall_mem_cons.1 others).1]
          rw [List.flatten_cons, intercalate_append some more, ih others]
          simp

theorem isInfix_of_mem_pieces {mark : Char} (inside : piece ∈ pieces mark text) :
    piece <:+: text := by
  have part := isInfix_intercalate inside [mark]
  rwa [intercalate_pieces] at part

section Words

theorem words_eq_splitOnP (text : List Char) :
    words text = (text.splitOnP isBlank).filter fun word => !word.isEmpty := by
  induction text with
  | nil => rfl
  | cons c rest ih =>
      rw [List.splitOnP_cons_eq_if_modifyHead]
      cases mark : isBlank c with
      | true =>
          rw [words_cons_blank mark, ih]
          rfl
      | false =>
          cases rest with
          | nil => simp [words, mark]
          | cons next rest =>
              rw [List.splitOnP_cons_eq_if_modifyHead] at ih ⊢
              rw [words]
              cases follows : isBlank next with
              | true =>
                  rw [follows, if_pos rfl] at ih
                  simpa [mark, follows] using ih
              | false =>
                  rw [follows] at ih
                  obtain ⟨first, others, parts⟩ :=
                    List.exists_cons_of_ne_nil (List.splitOnP_ne_nil isBlank rest)
                  simp [mark, ih, parts]

theorem words_eq_nil_iff : words text = [] ↔ AllBlank text := by
  induction text with
  | nil => simp [words, AllBlank]
  | cons c rest ih =>
      cases mark : isBlank c with
      | true => rw [words_cons_blank mark, ih, AllBlank, AllBlank, List.forall_mem_cons, mark]; simp
      | false => simp [words_cons_of_not_blank mark, AllBlank, mark]

theorem words_append_of_allBlank {front : List Char} (blank : AllBlank front) (text : List Char) :
    words (front ++ text) = words text := by
  induction front with
  | nil => rfl
  | cons c front ih =>
      obtain ⟨first, rest⟩ := List.forall_mem_cons.1 blank
      rw [List.cons_append, words_cons_blank first, ih rest]

theorem words_solid_append_of_ends {back : List Char} (some : word ≠ []) (solid : Solid word)
    (ends : ∀ c ∈ back.head?, isBlank c = true) : words (word ++ back) = word :: words back := by
  obtain ⟨c, rest, rfl⟩ := List.exists_cons_of_ne_nil some
  obtain ⟨first, others⟩ := List.forall_mem_cons.1 solid
  have inside : ∀ d ∈ rest, (!isBlank d) = true := fun d among => by rw [others d among]; rfl
  have nothing : back.takeWhile (fun d => !isBlank d) = [] := by
    cases back with
    | nil => rfl
    | cons d back => simp [ends d rfl]
  have everything : back.dropWhile (fun d => !isBlank d) = back := by
    cases back with
    | nil => rfl
    | cons d back => simp [ends d rfl]
  rw [List.cons_append, words_cons_of_not_blank first, List.takeWhile_append_of_pos inside, nothing,
    List.dropWhile_append_of_pos inside, everything, List.append_nil]

theorem words_solid_append {back : List Char} (some : word ≠ []) (solid : Solid word)
    (blank : AllBlank back) : words (word ++ back) = [word] := by
  have ends : ∀ c ∈ back.head?, isBlank c = true := fun c first => blank c (List.mem_of_mem_head? first)
  rw [words_solid_append_of_ends some solid ends, words_eq_nil_iff.2 blank]

theorem words_intercalate {ws : List (List Char)} (each : ∀ w ∈ ws, w ≠ [] ∧ Solid w) :
    words ([' '].intercalate ws) = ws := by
  induction ws with
  | nil => rfl
  | cons w ws ih =>
      obtain ⟨⟨some, solid⟩, others⟩ := List.forall_mem_cons.1 each
      cases ws with
      | nil =>
          have single : words (w ++ []) = [w] := words_solid_append some solid (by simp [AllBlank])
          rw [List.append_nil] at single
          rwa [List.intercalate_singleton]
      | cons w' ws =>
          rw [List.intercalate_cons_cons, List.append_assoc,
            words_solid_append_of_ends some solid (by simp; decide), List.singleton_append,
            words_cons_blank (by decide), ih others]

/-- A word is a part of the text: it ends behind its first character, or it is a later word. -/
theorem isInfix_of_mem_words {text : List Char} (inside : word ∈ words text) : word <:+: text := by
  match text with
  | [] => simp [words] at inside
  | c :: rest =>
      cases mark : isBlank c with
      | true =>
          rw [words_cons_blank mark] at inside
          exact (isInfix_of_mem_words inside).trans (List.suffix_cons c rest).isInfix
      | false =>
          rw [words_cons_of_not_blank mark] at inside
          rcases List.mem_cons.1 inside with rfl | inside
          · exact (List.cons_prefix_cons.2 ⟨rfl, List.takeWhile_prefix _⟩).isInfix
          · have behind := (List.dropWhile_suffix (l := rest) fun d => !isBlank d).trans
              (List.suffix_cons c rest)
            exact (isInfix_of_mem_words inside).trans behind.isInfix
termination_by text.length
decreasing_by
  all_goals
    have shorter := (List.dropWhile_suffix (l := rest) fun d => !isBlank d).length_le
    simp only [List.length_cons]
    omega

theorem words_eq_singleton_iff : words text = [word] ↔ word ≠ [] ∧ Solid word ∧
    ∃ front back, AllBlank front ∧ AllBlank back ∧ text = front ++ word ++ back := by
  constructor
  · intro single
    obtain ⟨some, solid⟩ := solid_of_mem_words (single ▸ List.mem_singleton_self word)
    refine ⟨some, solid, ?_⟩
    induction text with
    | nil => simp [words] at single
    | cons c rest ih =>
        cases mark : isBlank c with
        | true =>
            rw [words_cons_blank mark] at single
            obtain ⟨front, back, before, behind, split⟩ := ih single
            exact ⟨c :: front, back, List.forall_mem_cons.2 ⟨mark, before⟩, behind, by simp [split]⟩
        | false =>
            rw [words_cons_of_not_blank mark] at single
            obtain ⟨rfl, nothing⟩ := List.cons.inj single
            refine ⟨[], _, by simp [AllBlank], words_eq_nil_iff.1 nothing, ?_⟩
            rw [List.nil_append, List.cons_append, List.takeWhile_append_dropWhile]
  · rintro ⟨some, solid, front, back, before, behind, rfl⟩
    rw [List.append_assoc, words_append_of_allBlank before, words_solid_append some solid behind]

theorem dropWhile_isBlank_eq_cons_iff (black : isBlank c = false) :
    text.dropWhile isBlank = c :: right ↔ ∃ front, AllBlank front ∧ text = front ++ c :: right := by
  constructor
  · intro found
    refine ⟨text.takeWhile isBlank, List.all_eq_true.1 List.all_takeWhile, ?_⟩
    rw [← found, List.takeWhile_append_dropWhile]
  · rintro ⟨front, blank, rfl⟩
    rw [List.dropWhile_append_of_pos blank, List.dropWhile_cons_of_neg (by simp [black])]

end Words

section Arrows

theorem arrow_isInfix_append_cons_iff (outside : c ∉ arrow) :
    arrow <:+: left ++ c :: right ↔ arrow <:+: left ∨ arrow <:+: right := by
  obtain ⟨dash, tip⟩ : c ≠ '-' ∧ c ≠ '>' := by simpa [arrow] using outside
  induction left with
  | nil => simp [arrow, List.infix_cons_iff, dash.symm]
  | cons d left ih =>
      rw [List.cons_append, List.infix_cons_iff, ih, List.infix_cons_iff, or_assoc]
      refine or_congr_left ?_
      cases left <;> simp [arrow, tip.symm]

theorem arrow_isInfix_append_iff {front : List Char} (blank : AllBlank front) :
    arrow <:+: front ++ text ↔ arrow <:+: text := by
  induction front with
  | nil => rfl
  | cons c front ih =>
      obtain ⟨first, rest⟩ := List.forall_mem_cons.1 blank
      have outside : c ∉ arrow := by
        intro inside
        rcases (by simpa [arrow] using inside : c = '-' ∨ c = '>') with rfl | rfl
        · contradiction
        · contradiction
      have cut : arrow <:+: [] ++ c :: (front ++ text) ↔ _ := arrow_isInfix_append_cons_iff outside
      rw [List.nil_append] at cut
      rw [List.cons_append, cut, ih rest]
      simp [arrow]

/-- Blanks between words make no arrow. -/
theorem arrow_isInfix_intercalate_iff {ws : List (List Char)} :
    arrow <:+: [' '].intercalate ws ↔ ∃ w ∈ ws, arrow <:+: w := by
  induction ws with
  | nil => simp [arrow]
  | cons w ws ih =>
      cases ws with
      | nil => simp
      | cons w' ws =>
          rw [List.intercalate_cons_cons, List.append_assoc, List.singleton_append,
            arrow_isInfix_append_cons_iff (by decide), ih]
          simp

theorem arrowPieces_ne_nil (text : List Char) : arrowPieces text ≠ [] := by
  fun_induction arrowPieces text with
  | case1 => simp
  | case2 rest ih => simp
  | case3 c rest other ih => simpa using ih

theorem intercalate_arrowPieces (text : List Char) :
    arrow.intercalate (arrowPieces text) = text := by
  fun_induction arrowPieces text with
  | case1 => rfl
  | case2 rest ih =>
      obtain ⟨first, others, parts⟩ := List.exists_cons_of_ne_nil (arrowPieces_ne_nil rest)
      rw [parts] at ih ⊢
      simp [← ih, arrow]
  | case3 c rest other ih =>
      obtain ⟨first, others, parts⟩ := List.exists_cons_of_ne_nil (arrowPieces_ne_nil rest)
      rw [parts] at ih ⊢
      rw [← ih]
      cases others <;> simp

theorem isPrefix_of_arrowPieces {others : List (List Char)}
    (parts : arrowPieces text = piece :: others) : piece <+: text := by
  rw [← intercalate_arrowPieces text, parts]
  cases others with
  | nil => simp
  | cons => simp [List.append_assoc]

theorem not_arrow_of_mem_arrowPieces (inside : piece ∈ arrowPieces text) : ¬ arrow <:+: piece := by
  fun_induction arrowPieces text generalizing piece with
  | case1 => simp_all [arrow]
  | case2 rest ih =>
      rcases List.mem_cons.1 inside with rfl | inside
      · simp [arrow]
      · exact ih inside
  | case3 c rest other ih =>
      obtain ⟨first, others, parts⟩ := List.exists_cons_of_ne_nil (arrowPieces_ne_nil rest)
      rw [parts, List.modifyHead_cons] at inside
      rcases List.mem_cons.1 inside with rfl | inside
      · -- An arrow at the front of the piece would be one at the front of the text.
        rw [List.infix_cons_iff, not_or]
        refine ⟨fun begins => ?_, ih (by simp [parts])⟩
        obtain ⟨dash, begins⟩ := List.cons_prefix_cons.1 begins
        obtain ⟨tail, split⟩ := begins.trans (isPrefix_of_arrowPieces parts)
        exact other tail dash.symm split.symm
      · exact ih (by simp [parts, inside])

theorem arrowPieces_append (left right : List Char) :
    arrowPieces (left ++ arrow ++ right) = arrowPieces left ++ arrowPieces right := by
  fun_induction arrowPieces left with
  | case1 => rfl
  | case2 rest ih => simpa [arrowPieces] using ih
  | case3 c rest other ih =>
      have other' : ∀ tail, c = '-' → rest ++ arrow ++ right = '>' :: tail → False := by
        intro tail dash begins
        cases rest with
        | nil => simp [arrow] at begins
        | cons d rest => exact other rest dash (by rw [(List.cons.inj begins).1])
      obtain ⟨first, others, parts⟩ := List.exists_cons_of_ne_nil (arrowPieces_ne_nil rest)
      rw [List.cons_append, List.cons_append, arrowPieces.eq_3 _ _ other', ih, parts]
      rfl

theorem arrowPieces_eq_singleton_iff :
    arrowPieces text = [piece] ↔ piece = text ∧ ¬ arrow <:+: text := by
  have whole := intercalate_arrowPieces text
  constructor
  · intro single
    rw [single, List.intercalate_singleton] at whole
    subst whole
    have inside : piece ∈ arrowPieces piece := single ▸ List.mem_singleton_self piece
    exact ⟨rfl, not_arrow_of_mem_arrowPieces inside⟩
  · rintro ⟨rfl, free⟩
    obtain ⟨first, others, parts⟩ := List.exists_cons_of_ne_nil (arrowPieces_ne_nil piece)
    rw [parts] at whole ⊢
    cases others with
    | nil => rw [← whole, List.intercalate_singleton]
    | cons second others =>
        refine absurd ⟨first, arrow.intercalate (second :: others), ?_⟩ free
        rw [← whole, List.intercalate_cons_cons, List.append_assoc]

theorem arrowPieces_eq_pair_iff : arrowPieces text = [left, right] ↔
    text = left ++ arrow ++ right ∧ ¬ arrow <:+: left ∧ ¬ arrow <:+: right := by
  constructor
  · intro pair
    have whole := intercalate_arrowPieces text
    rw [pair] at whole
    have free : ∀ piece ∈ arrowPieces text, ¬ arrow <:+: piece :=
      fun piece inside => not_arrow_of_mem_arrowPieces inside
    rw [pair] at free
    exact ⟨by simpa using whole.symm, free left (by simp), free right (by simp)⟩
  · rintro ⟨rfl, before, behind⟩
    rw [arrowPieces_append, arrowPieces_eq_singleton_iff.2 ⟨rfl, before⟩,
      arrowPieces_eq_singleton_iff.2 ⟨rfl, behind⟩]
    rfl

theorem two_lt_length_arrowPieces_iff : 2 < (arrowPieces text).length ↔
    ∃ left middle right, text = left ++ arrow ++ middle ++ arrow ++ right := by
  constructor
  · intro many
    have whole := intercalate_arrowPieces text
    match parts : arrowPieces text, many with
    | left :: middle :: third :: others, _ =>
        refine ⟨left, middle, arrow.intercalate (third :: others), ?_⟩
        rw [← whole, parts]
        simp
  · intro found
    obtain ⟨left, middle, right, rfl⟩ := found
    have before := List.length_pos_iff.2 (arrowPieces_ne_nil left)
    have between := List.length_pos_iff.2 (arrowPieces_ne_nil middle)
    have behind := List.length_pos_iff.2 (arrowPieces_ne_nil right)
    rw [List.append_assoc _ middle, List.append_assoc _ _ right, arrowPieces_append,
      arrowPieces_append, List.length_append, List.length_append]
    omega

end Arrows

end Predictive.Text
