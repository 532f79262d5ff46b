import Predictive.Proofs.FirstFollow.Neighbours
import Predictive.Proofs.Recognizer.Loop

set_option autoImplicit false

namespace Predictive

open Grammar

variable {g : Grammar} {t : ParseTable}

theorem ParseTable.move_of_get? {head token : Symbol} {below rest : List Symbol} {body : Body}
    (apart : head ≠ token) (found : t.get? head token = some body) :
    t.move ⟨head :: below, token :: rest⟩ =
      .expand head ⟨Body.symbols body ++ below, token :: rest⟩ := by
  have undone : ¬ (head = endMark ∧ token = endMark) :=
    fun both => apart (both.1.trans both.2.symm)
  simp only [move, if_neg undone, if_neg apart, found]

theorem ne_lookahead (valid : g.WellFormed) {name token : Symbol} {w rest : List Symbol}
    (named : name ∈ g.names) (terminal : g.TerminalString w)
    (input : w ++ [endMark] = token :: rest) : name ≠ token := by
  intro same
  subst same
  have among : name ∈ w ++ [endMark] := by
    rw [input]
    exact List.mem_cons_self
  rcases List.mem_append.1 among with known | ends
  · exact valid.not_terminal (terminal name known) named
  · exact valid.ne_endMark_of_mem (mem_allSymbols.2 (.inl named)) (List.mem_singleton.1 ends)

/-- The machine follows a derivation from the front of its stack, if it accepts from what is left.
-/
theorem accepts_of_derives (valid : g.WellFormed)
    (called : ∀ head token b, b ∈ g.bodies head → g.Predicts head (Body.symbols b) token →
      t.get? head token = some b) {u v : List Symbol} (derived : g.Derives u v)
    {done below w : List Symbol} (terminal : g.TerminalString (v ++ w)) (rest : g.Derives below w)
    (reached : g.Derives [g.start] (done ++ (u ++ below)))
    (accepts : t.Accepts ⟨below ++ [endMark], w ++ [endMark]⟩) :
    t.Accepts ⟨u ++ below ++ [endMark], v ++ w ++ [endMark]⟩ := by
  induction derived generalizing done below w with
  | nil => exact accepts
  | @keep u v s _ ih =>
      obtain ⟨known, later⟩ := List.forall_mem_cons.1 terminal
      have other := valid.ne_endMark_of_mem (mem_allSymbols.2 (.inr known))
      have read : g.Derives [g.start] ((done ++ [s]) ++ (u ++ below)) := by
        rwa [List.append_assoc]
      refine .consume ?_ (ih later rest read accepts)
      simp [ParseTable.move, other]
  | @expand name b u v v' inside front back ihFront ihBack =>
      -- `done` keeps the form one of the start symbol, so that the next token calls for `b`
      rw [List.append_assoc] at terminal
      have passed : g.Derives [g.start] ((done ++ v) ++ (u ++ below)) := by
        rw [List.append_assoc]
        exact reached.inside (derives_of_mem_bodies inside front)
      have opened : g.Derives [g.start] (done ++ (Body.symbols b ++ (u ++ below))) :=
        reached.inside_body inside
      have later := ihBack (List.forall_mem_append.1 terminal).2 rest passed accepts
      have behind := back.append rest
      have expanded := ihFront terminal behind opened later
      obtain ⟨token, tokens, input⟩ := exists_lookahead (v ++ (v' ++ w))
      have chosen := called name token b inside
        (predicts_of_derives reached (front.append behind) terminal input)
      have apart := ne_lookahead valid (mem_names_of_mem_bodies inside) terminal input
      rw [List.append_assoc v, List.cons_append, input]
      rw [input, List.append_assoc] at expanded
      exact .expand (ParseTable.move_of_get? apart chosen) expanded

end Predictive
