set_option autoImplicit false

namespace Predictive

variable {α : Type} [DecidableEq α]

/-- The longest list that both `a` and `b` begin with. -/
def commonPrefix : List α → List α → List α
  | x :: a, y :: b => if x = y then x :: commonPrefix a b else []
  | _, _ => []

def commonPrefixSize (a b : List α) : Nat := (commonPrefix a b).length

/-- The better of `best` and what `x` and `y` share; `best` if they are as long. -/
def longerPrefix (x best y : List α) : List α :=
  if best.length < commonPrefixSize x y then commonPrefix x y else best

/-- Improves `best` by the pairs of a list of `lists` and a later one, the pairs of the first list
before those of the second. -/
def longestCommonPrefixFrom (best : List α) : List (List α) → List α
  | [] => best
  | x :: rest => longestCommonPrefixFrom (rest.foldl (longerPrefix x) best) rest

/-- The longest list that two of `lists` begin with; of several, the one of the first pair. -/
def longestCommonPrefix (lists : List (List α)) : List α := longestCommonPrefixFrom [] lists

theorem commonPrefix_isPrefix_left (a b : List α) : commonPrefix a b <+: a := by
  induction a generalizing b with
  | nil => simp [commonPrefix]
  | cons x a ih =>
      cases b with
      | nil => simp [commonPrefix]
      | cons y b =>
        simp only [commonPrefix]
        split
        case isTrue => exact List.cons_prefix_cons.2 ⟨rfl, ih b⟩
        case isFalse => simp

theorem commonPrefix_comm (a b : List α) : commonPrefix a b = commonPrefix b a := by
  induction a generalizing b with
  | nil => cases b <;> rfl
  | cons x a ih =>
      cases b with
      | nil => rfl
      | cons y b =>
        simp only [commonPrefix, ih b, eq_comm]
        split
        case isTrue same => simp [same]
        case isFalse => rfl

theorem isPrefix_commonPrefix {p a b : List α} (left : p <+: a) (right : p <+: b) :
    p <+: commonPrefix a b := by
  induction p generalizing a b with
  | nil => exact List.nil_prefix
  | cons x p ih =>
      obtain ⟨a, rfl⟩ := left
      obtain ⟨b, rfl⟩ := right
      simp [commonPrefix, ih (List.prefix_append p a) (List.prefix_append p b)]

end Predictive
