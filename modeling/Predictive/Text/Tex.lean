set_option autoImplicit false

namespace Predictive.Text.Tex

/-- The characters that a backslash takes their meaning in LaTeX from. -/
def marked : List Char := ['&', '%', '$', '#', '_', '\x7b', '\x7d']

/-- All characters that may be written as something other than themselves. -/
def special : List Char := marked ++ ['[', ']', '~', '^', '<', '>', '!', '\\', '-']

/-- The function writes `c` as `shown`, whatever stands behind it. -/
def Shows (escape : String → String) (c : Char) (shown : String) : Prop :=
  ∀ rest : List Char, escape (.ofList (c :: rest)) = shown ++ escape (.ofList rest)

/-- What a function has to do that turns text into LaTeX source which prints it. It comes from another
library, which goes through the text one character after another. -/
structure Escapes (escape : String → String) : Prop where
  empty : escape "" = ""
  marked : ∀ c ∈ marked, Shows escape c ("\\" ++ c.toString)
  opening : Shows escape '[' "\x7b[\x7d"
  closing : Shows escape ']' "\x7b]\x7d"
  tilde : Shows escape '~' "\\textasciitilde\x7b\x7d"
  caret : Shows escape '^' "\\textasciicircum\x7b\x7d"
  less : Shows escape '<' "\\textless\x7b\x7d"
  greater : Shows escape '>' "\\textgreater\x7b\x7d"
  exclamation : Shows escape '!' "!\x7b\x7d"
  backslash : Shows escape '\\' "\\textbackslash\x7b\x7d"
  /-- Two dashes in a row are kept from becoming one long dash. -/
  dashes : ∀ rest : List Char, rest.head? = some '-' →
    escape (.ofList ('-' :: rest)) = "-\x7b\x7d" ++ escape (.ofList rest)
  dash : ∀ rest : List Char, rest.head? ≠ some '-' →
    escape (.ofList ('-' :: rest)) = "-" ++ escape (.ofList rest)
  plain : ∀ c ∉ special, Shows escape c c.toString

/-- A character as LaTeX source, given that no dash follows a dash. -/
def escapeChar (c : Char) : String :=
  match c with
  | '&' | '%' | '$' | '#' | '_' | '\x7b' | '\x7d' => "\\" ++ c.toString
  | '[' => "\x7b[\x7d"
  | ']' => "\x7b]\x7d"
  | '~' => "\\textasciitilde\x7b\x7d"
  | '^' => "\\textasciicircum\x7b\x7d"
  | '<' => "\\textless\x7b\x7d"
  | '>' => "\\textgreater\x7b\x7d"
  | '!' => "!\x7b\x7d"
  | '\\' => "\\textbackslash\x7b\x7d"
  | c => c.toString

def escapeList : List Char → String
  | [] => ""
  | c :: rest =>
    (if c = '-' ∧ rest.head? = some '-' then "-\x7b\x7d" else escapeChar c) ++ escapeList rest

/-- The function that the program is run with. -/
def escape (text : String) : String := escapeList text.toList

theorem escape_cons (c : Char) (rest : List Char) :
    escape (.ofList (c :: rest)) =
      (if c = '-' ∧ rest.head? = some '-' then "-\x7b\x7d" else escapeChar c) ++
        escape (.ofList rest) := by
  simp only [escape, String.toList_ofList, escapeList]

theorem shows_escapeChar {c : Char} (other : c ≠ '-') : Shows escape c (escapeChar c) := by
  intro rest
  rw [escape_cons, if_neg fun both => other both.1]

theorem escapes_escape : Escapes escape where
  empty := rfl
  marked c listed := by
    have other : c ≠ '-' := fun same => absurd (same ▸ listed) (by decide)
    have same : escapeChar c = "\\" ++ c.toString := by
      unfold escapeChar
      split <;> simp_all [marked]
    exact same ▸ shows_escapeChar other
  opening := shows_escapeChar (by decide)
  closing := shows_escapeChar (by decide)
  tilde := shows_escapeChar (by decide)
  caret := shows_escapeChar (by decide)
  less := shows_escapeChar (by decide)
  greater := shows_escapeChar (by decide)
  exclamation := shows_escapeChar (by decide)
  backslash := shows_escapeChar (by decide)
  dashes rest again := by rw [escape_cons, if_pos ⟨rfl, again⟩]
  dash rest last := by
    rw [escape_cons, if_neg fun both => last both.2]
    rfl
  plain c unlisted := by
    have other : c ≠ '-' := fun same => unlisted (same ▸ by decide)
    have same : escapeChar c = c.toString := by
      unfold escapeChar
      split <;> simp_all [special, marked]
    exact same ▸ shows_escapeChar other

end Predictive.Text.Tex
