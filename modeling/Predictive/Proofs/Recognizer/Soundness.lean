import Predictive.Proofs.Derivation.Language
import Predictive.Proofs.Recognizer.Loop
import Mathlib.Logic.Relation

set_option autoImplicit false

namespace Predictive

open Grammar

variable {g : Grammar} {t : ParseTable}

namespace ParseTable

/-- One symbol of a form is replaced by a body that the table holds in a cell of its row. -/
inductive Expands (t : ParseTable) : List Symbol → List Symbol → Prop where
  | expand (front back : List Symbol) {head lookahead : Symbol} {body : Body}
      (held : body ∈ t.entries head lookahead) :
      Expands t (front ++ head :: back) (front ++ (Body.symbols body ++ back))

/-- The form becomes the other by zero or more expansions by bodies that the table holds. -/
def ExpandsTo (t : ParseTable) : List Symbol → List Symbol → Prop := Relation.ReflTransGen t.Expands

theorem ExpandsTo.cons {u v : List Symbol} (s : Symbol) (expands : t.ExpandsTo u v) :
    t.ExpandsTo (s :: u) (s :: v) := by
  refine Relation.ReflTransGen.lift (s :: ·) (fun x y step => ?_) u v expands
  cases step with
  | expand front back held => exact .expand (s :: front) back held

/-- The bodies in the cells do without the end mark, and it has none itself. -/
def EndMarkFree (t : ParseTable) : Prop :=
  ∀ head lookahead, ∀ b ∈ t.entries head lookahead, head ≠ endMark ∧ endMark ∉ Body.symbols b

theorem move_eq_accept {c : Config} (moves : t.move c = .accept) :
    ∃ below rest, c = ⟨endMark :: below, endMark :: rest⟩ := by
  obtain ⟨stack, input⟩ := c
  cases stack with
  | nil => simp [move] at moves
  | cons top below =>
      cases input with
      | nil => simp [move] at moves
      | cons token rest =>
        simp only [move] at moves
        split at moves
        case isTrue ends =>
          obtain ⟨rfl, rfl⟩ := ends
          exact ⟨below, rest, rfl⟩
        case isFalse =>
          split at moves
          case isTrue => contradiction
          case isFalse => split at moves <;> contradiction

theorem eq_nil_of_endMark_cons {u l : List Symbol} (same : endMark :: l = u ++ [endMark])
    (plain : endMark ∉ u) : u = [] := by
  cases u with
  | nil => rfl
  | cons s u =>
      obtain ⟨rfl, -⟩ := List.cons.inj same
      exact absurd List.mem_cons_self plain

theorem exists_eq_cons_of_top {u below : List Symbol} {top : Symbol}
    (stack : top :: below = u ++ [endMark]) (other : top ≠ endMark) :
    ∃ rest, u = top :: rest ∧ below = rest ++ [endMark] := by
  cases u with
  | nil => exact absurd (List.cons.inj stack).1 other
  | cons s rest =>
      obtain ⟨rfl, rfl⟩ := List.cons.inj stack
      exact ⟨rest, rfl, rfl⟩

theorem expandsTo_of_accepts (free : t.EndMarkFree) {c : Config} (accepts : t.Accepts c)
    {u w : List Symbol} (here : c = ⟨u ++ [endMark], w ++ [endMark]⟩) (stackPlain : endMark ∉ u)
    (inputPlain : endMark ∉ w) : t.ExpandsTo u w := by
  -- the end mark stays at the bottom of both until the machine accepts
  induction accepts generalizing u w with
  | accept done =>
      obtain ⟨below, rest, rfl⟩ := move_eq_accept done
      obtain ⟨stack, input⟩ := Config.mk.inj here
      rw [eq_nil_of_endMark_cons stack stackPlain, eq_nil_of_endMark_cons input inputPlain]
      exact .refl
  | @consume c next moves _ ih =>
      obtain ⟨token, rfl⟩ := move_eq_consume moves
      obtain ⟨stack, input⟩ := Config.mk.inj here
      have other : token ≠ endMark := by
        intro same
        simp [move, same] at moves
      obtain ⟨u, rfl, below⟩ := exists_eq_cons_of_top stack other
      obtain ⟨w, rfl, rest⟩ := exists_eq_cons_of_top input other
      refine .cons token (ih ?_ (fun inside => stackPlain (.tail _ inside))
        fun inside => inputPlain (.tail _ inside))
      rw [← below, ← rest]
  | expand moves _ ih =>
      obtain ⟨below, token, rest, body, rfl, found, rfl⟩ := move_eq_expand moves
      obtain ⟨stack, input⟩ := Config.mk.inj here
      have held := List.mem_of_getLast? found
      obtain ⟨other, front⟩ := free _ _ _ held
      obtain ⟨u, rfl, rfl⟩ := exists_eq_cons_of_top stack other
      have expanded : t.ExpandsTo (Body.symbols body ++ u) w := by
        refine ih ?_ (fun among => ?_) inputPlain
        · rw [input, List.append_assoc]
        · rcases List.mem_append.1 among with among | among
          · exact front among
          · exact stackPlain (.tail _ among)
      exact .head (.expand [] u held) expanded

/-- The recognizer lets nothing through but what the start symbol becomes by bodies of the table. -/
theorem expandsTo_of_recognizes (free : t.EndMarkFree) {start : Symbol} (other : start ≠ endMark)
    {tokens : List Symbol} (accepted : t.recognizes start tokens = true) :
    t.ExpandsTo [start] tokens := by
  have plain : endMark ∉ tokens := by
    intro inside
    simp [recognizes, inside] at accepted
  exact expandsTo_of_accepts free ((recognizes_iff_accepts plain).1 accepted) rfl
    (by simpa using other.symm) plain

variable (own : ∀ head lookahead, ∀ b ∈ t.entries head lookahead, b ∈ g.bodies head)

include own

theorem derives_of_expandsTo {u v : List Symbol} (expands : t.ExpandsTo u v) : g.Derives u v := by
  induction expands with
  | refl => exact Derives.refl g u
  | tail _ step ih =>
      cases step with
      | expand front back held =>
          exact ih.inside_body (own _ _ _ held)

theorem endMarkFree_of_own (valid : g.WellFormed) : t.EndMarkFree := by
  intro head lookahead b held
  have inside := own head lookahead b held
  have named := mem_names_of_mem_bodies inside
  refine ⟨valid.ne_endMark_of_mem (mem_allSymbols.2 (.inl named)), fun among => ?_⟩
  exact valid.noEndMark ((valid.fits head b inside).2 endMark among)

end ParseTable

end Predictive
