import Predictive.ParseTable

set_option autoImplicit false

namespace Predictive

/-- The stack, its top first, and the tokens still to be read. -/
structure Config where
  stack : List Symbol
  input : List Symbol
deriving DecidableEq

/-- What the machine does next. -/
inductive Move where
  | accept
  | reject
  | consume (next : Config)
  | expand (head : Symbol) (next : Config)
deriving DecidableEq

namespace ParseTable

def move (t : ParseTable) (c : Config) : Move :=
  match c.stack, c.input with
  | top :: below, token :: rest =>
    if top = endMark ∧ token = endMark then .accept
    else if top = token then .consume ⟨below, rest⟩
    else
      match t.get? top token with
      | some body => .expand top ⟨Body.symbols body ++ below, token :: rest⟩
      | none => .reject
  | _, _ => .reject

/-- The machine before the first move: the start symbol above the end mark, and the tokens before
it. -/
def initial (start : Symbol) (tokens : List Symbol) : Config :=
  ⟨[start, endMark], tokens ++ [endMark]⟩

/-- The machine comes to accept from a configuration. -/
inductive Accepts (t : ParseTable) : Config → Prop where
  | accept {c : Config} (done : t.move c = .accept) : Accepts t c
  | consume {c next : Config} (moves : t.move c = .consume next) (later : Accepts t next) :
      Accepts t c
  | expand {c next : Config} {head : Symbol} (moves : t.move c = .expand head next)
      (later : Accepts t next) : Accepts t c

theorem move_eq_consume {t : ParseTable} {c next : Config} (moves : t.move c = .consume next) :
    ∃ token, c = ⟨token :: next.stack, token :: next.input⟩ := by
  obtain ⟨stack, input⟩ := c
  cases stack with
  | nil => simp [move] at moves
  | cons top below =>
      cases input with
      | nil => simp [move] at moves
      | cons token rest =>
        simp only [move] at moves
        split at moves
        case isTrue => contradiction
        case isFalse =>
          split at moves
          case isTrue same =>
            obtain rfl := Move.consume.inj moves
            exact ⟨top, by rw [same]⟩
          case isFalse => split at moves <;> contradiction

theorem move_eq_expand {t : ParseTable} {c next : Config} {head : Symbol}
    (moves : t.move c = .expand head next) :
    ∃ below token rest body, c = ⟨head :: below, token :: rest⟩ ∧
      t.get? head token = some body ∧ next = ⟨Body.symbols body ++ below, token :: rest⟩ := by
  obtain ⟨stack, input⟩ := c
  cases stack with
  | nil => simp [move] at moves
  | cons top below =>
      cases input with
      | nil => simp [move] at moves
      | cons token rest =>
        simp only [move] at moves
        split at moves
        case isTrue => contradiction
        case isFalse =>
          split at moves
          case isTrue => contradiction
          case isFalse =>
            split at moves
            case h_1 body found =>
              obtain ⟨rfl, rfl⟩ := Move.expand.inj moves
              exact ⟨below, token, rest, body, rfl, found, rfl⟩
            case h_2 => contradiction

end ParseTable

end Predictive
