import Predictive.Text.Tex
import Mathlib.Data.List.Count
import Mathlib.Data.List.Basic

set_option autoImplicit false

namespace Predictive.Text.Tex

/-- How many backslashes a text begins with. -/
def backslashes : List Char → Nat
  | [] => 0
  | c :: rest => if c = '\\' then backslashes rest + 1 else 0

/-- The characters of `text` that an even number of backslashes stands before, where `before` is what
comes before `text`, from its end to its beginning. -/
def unescapedAfter (before : List Char) : List Char → List Char
  | [] => []
  | c :: rest =>
    if backslashes before % 2 = 0 then c :: unescapedAfter (c :: before) rest
    else unescapedAfter (c :: before) rest

def unescaped (text : List Char) : List Char := unescapedAfter [] text

/-- Every brace has its partner. -/
inductive Balanced : List Char → Prop
  | nil : Balanced []
  | other {c : Char} (opening : c ≠ '\x7b') (closing : c ≠ '\x7d') : Balanced [c]
  | group {inner : List Char} (balanced : Balanced inner) :
      Balanced ('\x7b' :: inner ++ ['\x7d'])
  | append {front back : List Char} (left : Balanced front) (right : Balanced back) :
      Balanced (front ++ back)

/-- The marks of a comment, a parameter and a formula. -/
def forbidden : List Char := ['%', '#', '$']

/-- A text that begins no comment, parameter or formula of its own and leaves no brace open. -/
structure Intact (text : List Char) : Prop where
  harmless : ∀ c ∈ unescaped text, c ∉ forbidden
  balanced : Balanced (unescaped text)

/-- A part of a line with so many column separators. Its last character escapes nothing. -/
structure Sealed (text : List Char) (separators : Nat) : Prop extends Intact text where
  unbroken : '\n' ∉ text
  closed : backslashes text.reverse % 2 = 0
  count : (unescaped text).count '&' = separators

variable {text front back before before' : List Char} {c : Char} {m n : Nat}

theorem backslashes_append (front back : List Char) :
    backslashes (front ++ back) = backslashes front ∨
      backslashes (front ++ back) = backslashes front + backslashes back := by
  induction front with
  | nil => exact .inr (Nat.zero_add _).symm
  | cons c front ih =>
      simp only [List.cons_append, backslashes]
      split
      case isTrue => omega
      case isFalse => exact .inl rfl

/-- Of what stands before, only whether the backslashes at its end are even in number counts. -/
theorem unescapedAfter_congr (same : backslashes before % 2 = backslashes before' % 2)
    (text : List Char) : unescapedAfter before text = unescapedAfter before' text := by
  induction text generalizing before before' with
  | nil => rfl
  | cons c text ih =>
      have next : backslashes (c :: before) % 2 = backslashes (c :: before') % 2 := by
        simp only [backslashes]
        split
        case isTrue => omega
        case isFalse => rfl
      rw [unescapedAfter, unescapedAfter, same, ih next]

theorem unescapedAfter_append (before front back : List Char) :
    unescapedAfter before (front ++ back) =
      unescapedAfter before front ++ unescapedAfter (front.reverse ++ before) back := by
  induction front generalizing before with
  | nil => rfl
  | cons c front ih =>
      simp only [List.cons_append, unescapedAfter, ih, List.reverse_cons, List.append_assoc,
        List.nil_append]
      split <;> rfl

theorem unescaped_append (closed : backslashes front.reverse % 2 = 0) (back : List Char) :
    unescaped (front ++ back) = unescaped front ++ unescaped back := by
  rw [unescaped, unescapedAfter_append, List.append_nil]
  exact congrArg _ (unescapedAfter_congr closed back)

theorem unescaped_cons (other : c ≠ '\\') (text : List Char) :
    unescaped (c :: text) = c :: unescaped text := by
  have closed : backslashes [c].reverse % 2 = 0 := by simp [backslashes, other]
  exact unescaped_append closed text

theorem closed_append (left : backslashes front.reverse % 2 = 0)
    (right : backslashes back.reverse % 2 = 0) : backslashes (front ++ back).reverse % 2 = 0 := by
  rw [List.reverse_append]
  rcases backslashes_append back.reverse front.reverse with same | same <;> omega

theorem balanced_of_not_mem (opening : '\x7b' ∉ text) (closing : '\x7d' ∉ text) :
    Balanced text := by
  induction text with
  | nil => exact .nil
  | cons c text ih =>
      obtain ⟨first, opening⟩ := not_or.1 (mt List.mem_cons.2 opening)
      obtain ⟨first', closing⟩ := not_or.1 (mt List.mem_cons.2 closing)
      exact .append (.other (Ne.symm first) (Ne.symm first')) (ih opening closing)

theorem intact_nil : Intact [] := ⟨by simp [unescaped, unescapedAfter], .nil⟩

theorem sealed_nil : Sealed [] 0 := ⟨intact_nil, by simp, rfl, rfl⟩

theorem Sealed.intact_append (left : Sealed front n) (right : Intact back) :
    Intact (front ++ back) := by
  constructor
  · rw [unescaped_append left.closed]
    exact List.forall_mem_append.2 ⟨left.harmless, right.harmless⟩
  · rw [unescaped_append left.closed]
    exact .append left.balanced right.balanced

theorem Sealed.append (left : Sealed front m) (right : Sealed back n) :
    Sealed (front ++ back) (m + n) where
  toIntact := left.intact_append right.toIntact
  unbroken := by simp [left.unbroken, right.unbroken]
  closed := closed_append left.closed right.closed
  count := by rw [unescaped_append left.closed, List.count_append, left.count, right.count]

theorem Sealed.group (inner : Sealed text n) : Sealed ('\x7b' :: text ++ ['\x7d']) n := by
  have marks : unescaped ('\x7b' :: text ++ ['\x7d']) = '\x7b' :: unescaped text ++ ['\x7d'] := by
    rw [List.cons_append, unescaped_cons (by decide), unescaped_append inner.closed]
    rfl
  refine ⟨⟨?_, ?_⟩, by simp [inner.unbroken], by simp [backslashes], ?_⟩
  · intro c inside
    rw [marks, List.cons_append, List.mem_cons, List.mem_append, List.mem_singleton] at inside
    rcases inside with rfl | inside | rfl
    · decide
    · exact inner.harmless c inside
    · decide
  · rw [marks]
    exact .group inner.balanced
  · rw [marks]
    simp [inner.count]

/-- What is simple to see of a part without braces. -/
def Bare (text : List Char) (separators : Nat) : Prop :=
  '\n' ∉ text ∧ backslashes text.reverse % 2 = 0 ∧ (unescaped text).count '&' = separators ∧
    (unescaped text).all (fun c => decide (c ∉ '\x7b' :: '\x7d' :: forbidden)) = true

instance (text : List Char) (separators : Nat) : Decidable (Bare text separators) :=
  inferInstanceAs (Decidable (_ ∧ _ ∧ _ ∧ _))

theorem Bare.sealed (bare : Bare text n) : Sealed text n := by
  obtain ⟨unbroken, closed, count, all⟩ := bare
  have marks : ∀ c ∈ unescaped text, c ∉ '\x7b' :: '\x7d' :: forbidden := by
    simpa only [List.all_eq_true, decide_eq_true_eq] using all
  refine ⟨⟨fun c inside among => marks c inside (by simp [among]), ?_⟩, unbroken, closed, count⟩
  exact balanced_of_not_mem (fun inside => marks _ inside (by simp))
    fun inside => marks _ inside (by simp)

theorem sealed_singleton (plain : c ∉ '\n' :: '\\' :: '&' :: '\x7b' :: '\x7d' :: forbidden) :
    Sealed [c] 0 := by
  obtain ⟨newline, plain⟩ := not_or.1 (mt List.mem_cons.2 plain)
  obtain ⟨backslash, plain⟩ := not_or.1 (mt List.mem_cons.2 plain)
  obtain ⟨separator, plain⟩ := not_or.1 (mt List.mem_cons.2 plain)
  have same : unescaped [c] = [c] := rfl
  refine Bare.sealed ⟨?_, ?_, ?_, ?_⟩
  · exact fun inside => newline (List.mem_singleton.1 inside).symm
  · simp [backslashes, backslash]
  · rw [same]
    exact List.count_eq_zero.2 fun inside => separator (List.mem_singleton.1 inside).symm
  · rw [same]
    simpa using plain

theorem Bare.command (name : Bare front 0) (argument : Sealed text n) :
    Sealed (front ++ ('\x7b' :: text ++ ['\x7d'])) n := by
  have parts := name.sealed.append argument.group
  rwa [Nat.zero_add] at parts

/-- Parts without separators of their own, with the same text between neighbours. -/
theorem Sealed.intercalate {between : List Char} {parts : List (List Char)}
    (joint : Sealed between n) (each : ∀ part ∈ parts, Sealed part 0) :
    Sealed (between.intercalate parts) (n * (parts.length - 1)) := by
  induction parts with
  | nil => exact sealed_nil
  | cons part parts ih =>
      obtain ⟨first, others⟩ := List.forall_mem_cons.1 each
      cases parts with
      | nil => simpa using first
      | cons next parts =>
          have whole := (first.append joint).append (ih others)
          have total : 0 + n + n * ((next :: parts).length - 1) =
              n * ((part :: next :: parts).length - 1) := by
            simp only [List.length_cons, Nat.add_sub_cancel, Nat.mul_add]
            omega
          rwa [List.intercalate_cons_cons, ← total]

theorem intact_lines {lines : List (List Char)} (each : ∀ line ∈ lines, ∃ n, Sealed line n) :
    Intact (['\n'].intercalate lines) := by
  induction lines with
  | nil => exact intact_nil
  | cons line lines ih =>
      obtain ⟨⟨n, first⟩, others⟩ := List.forall_mem_cons.1 each
      obtain ⟨harmless, balanced⟩ := ih others
      cases lines with
      | nil => simpa using first.toIntact
      | cons next lines =>
          rw [List.intercalate_cons_cons, List.append_assoc, List.singleton_append]
          refine first.intact_append ⟨?_, ?_⟩
          · rw [unescaped_cons (by decide)]
            exact List.forall_mem_cons.2 ⟨by decide, harmless⟩
          · have newline : Balanced ['\n'] := .other (by decide) (by decide)
            rw [unescaped_cons (by decide)]
            exact newline.append balanced

namespace Escapes

variable {escape : String → String} (escapes : Escapes escape)

include escapes

theorem exists_shown (other : c ≠ '\n') (rest : List Char) : ∃ shown, Sealed shown.toList 0 ∧
    escape (.ofList (c :: rest)) = shown ++ escape (.ofList rest) := by
  have shows {shown : String} (how : escape (.ofList (c :: rest)) = shown ++ escape (.ofList rest))
      (part : Sealed shown.toList 0) : ∃ shown, Sealed shown.toList 0 ∧
        escape (.ofList (c :: rest)) = shown ++ escape (.ofList rest) := ⟨shown, part, how⟩
  by_cases listed : c ∈ special
  case neg =>
    have itself : c.toString.toList = [c] := String.toList_singleton c
    have plain : c ∉ '\n' :: '\\' :: '&' :: '\x7b' :: '\x7d' :: forbidden := by
      simp_all [special, Tex.marked, forbidden]
    exact shows (escapes.plain c listed rest) (itself ▸ sealed_singleton plain)
  case pos =>
    rcases List.mem_append.1 listed with mark | sign
    · have each : ∀ c ∈ Tex.marked, Bare ("\\" ++ c.toString).toList 0 := by
        simp only [Tex.marked, List.forall_mem_cons, List.not_mem_nil, false_implies, implies_true]
        decide
      exact shows (escapes.marked c mark rest) (each c mark).sealed
    · simp only [List.mem_cons, List.not_mem_nil, or_false] at sign
      rcases sign with rfl | rfl | rfl | rfl | rfl | rfl | rfl | rfl | rfl
      · exact shows (escapes.opening rest) (by decide : Bare ['['] 0).sealed.group
      · exact shows (escapes.closing rest) (by decide : Bare [']'] 0).sealed.group
      · exact shows (escapes.tilde rest)
          ((by decide : Bare "\\textasciitilde".toList 0).command sealed_nil)
      · exact shows (escapes.caret rest)
          ((by decide : Bare "\\textasciicircum".toList 0).command sealed_nil)
      · exact shows (escapes.less rest) ((by decide : Bare "\\textless".toList 0).command sealed_nil)
      · exact shows (escapes.greater rest)
          ((by decide : Bare "\\textgreater".toList 0).command sealed_nil)
      · exact shows (escapes.exclamation rest) ((by decide : Bare ['!'] 0).command sealed_nil)
      · exact shows (escapes.backslash rest)
          ((by decide : Bare "\\textbackslash".toList 0).command sealed_nil)
      · by_cases again : rest.head? = some '-'
        · exact shows (escapes.dashes rest again) ((by decide : Bare ['-'] 0).command sealed_nil)
        · exact shows (escapes.dash rest again) (by decide : Bare ['-'] 0).sealed

theorem sealed_ofList (unbroken : '\n' ∉ text) : Sealed (escape (.ofList text)).toList 0 := by
  induction text with
  | nil =>
      have nothing : escape (.ofList []) = "" := escapes.empty
      rw [nothing]
      exact sealed_nil
  | cons c text ih =>
      obtain ⟨other, later⟩ := not_or.1 (mt List.mem_cons.2 unbroken)
      obtain ⟨shown, part, split⟩ := escapes.exists_shown (Ne.symm other) text
      rw [split, String.toList_append]
      exact part.append (ih later)

end Escapes

end Predictive.Text.Tex
