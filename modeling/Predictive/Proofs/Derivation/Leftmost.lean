import Predictive.Proofs.Derivation.Productivity

set_option autoImplicit false

namespace Predictive

namespace Grammar

variable {g : Grammar} {u v w : List Symbol} {steps steps' : List (Symbol × Body)}

/-- `LeftmostDerives g u steps v`: the form `u` becomes `v` by the expansions `steps`, in their order
and each of the first non-terminal of the form. -/
inductive LeftmostDerives (g : Grammar) :
    List Symbol → List (Symbol × Body) → List Symbol → Prop where
  | refl (u : List Symbol) : LeftmostDerives g u [] u
  | expand {head : Symbol} {body : Body} {front back v : List Symbol}
      {steps : List (Symbol × Body)} (terminal : g.TerminalString front)
      (inside : body ∈ g.bodies head)
      (later : LeftmostDerives g (front ++ (Body.symbols body ++ back)) steps v) :
      LeftmostDerives g (front ++ head :: back) ((head, body) :: steps) v

namespace LeftmostDerives

theorem derives (leftmost : g.LeftmostDerives u steps v) : g.Derives u v := by
  induction leftmost with
  | refl u => exact Derives.refl g u
  | @expand head body front back v steps _ inside _ ih =>
      exact ((Derives.refl g (front ++ head :: back)).inside_body inside).trans ih

theorem append_left (leftmost : g.LeftmostDerives u steps v) (terminal : g.TerminalString w) :
    g.LeftmostDerives (w ++ u) steps (w ++ v) := by
  induction leftmost with
  | refl u => exact .refl (w ++ u)
  | expand plain inside _ ih =>
      rw [← List.append_assoc] at ih ⊢
      exact .expand (terminalString_append.2 ⟨terminal, plain⟩) inside ih

theorem append_right (leftmost : g.LeftmostDerives u steps v) (w : List Symbol) :
    g.LeftmostDerives (u ++ w) steps (v ++ w) := by
  induction leftmost with
  | refl u => exact .refl (u ++ w)
  | expand plain inside _ ih =>
      rw [List.append_assoc, List.append_assoc] at ih
      rw [List.append_assoc, List.cons_append]
      exact .expand plain inside ih

theorem trans (first : g.LeftmostDerives u steps v) (second : g.LeftmostDerives v steps' w) :
    g.LeftmostDerives u (steps ++ steps') w := by
  induction first with
  | refl => exact second
  | expand plain inside _ ih => exact .expand plain inside (ih second)

end LeftmostDerives

/-- What derives a terminal string has a leftmost derivation of it: each non-terminal is expanded to
the end before what stands behind it. -/
theorem Derives.exists_leftmostDerives (derived : g.Derives u w) (terminal : g.TerminalString w) :
    ∃ steps, g.LeftmostDerives u steps w := by
  induction derived with
  | nil => exact ⟨[], .refl []⟩
  | @keep u v s _ ih =>
      obtain ⟨here, later⟩ := List.forall_mem_cons.1 terminal
      obtain ⟨steps, leftmost⟩ := ih later
      have plain : g.TerminalString [s] := List.forall_mem_singleton.2 here
      exact ⟨steps, leftmost.append_left plain⟩
  | @expand head body u v w inside _ _ ihFront ihRest =>
      obtain ⟨front, back⟩ := terminalString_append.1 terminal
      obtain ⟨steps, left⟩ := ihFront front
      obtain ⟨steps', right⟩ := ihRest back
      have both := (left.append_right u).trans (right.append_left front)
      exact ⟨(head, body) :: (steps ++ steps'), .expand terminalString_nil inside both⟩

theorem WellFormed.eq_of_derives (valid : g.WellFormed) (derived : g.Derives u v)
    (terminal : g.TerminalString u) : v = u := by
  induction derived with
  | nil => rfl
  | keep s _ ih => rw [ih (List.forall_mem_cons.1 terminal).2]
  | expand inside _ _ _ _ =>
      have named := mem_names_of_mem_bodies inside
      exact absurd (terminal _ List.mem_cons_self) (valid.disjoint _ named)

theorem WellFormed.first_nonTerminal (valid : g.WellFormed) {front front' back back' : List Symbol}
    {head head' : Symbol} (terminal : g.TerminalString front) (terminal' : g.TerminalString front')
    (named : head ∈ g.names) (named' : head' ∈ g.names)
    (same : front ++ head :: back = front' ++ head' :: back') :
    front = front' ∧ head = head' ∧ back = back' := by
  induction front generalizing front' with
  | nil =>
      cases front' with
      | nil => exact ⟨rfl, List.cons.inj same⟩
      | cons s front' =>
          obtain ⟨rfl, -⟩ := List.cons.inj same
          exact absurd (terminal' head List.mem_cons_self) (valid.disjoint head named)
  | cons s front ih =>
      obtain ⟨here, later⟩ := List.forall_mem_cons.1 terminal
      cases front' with
      | nil =>
          obtain ⟨rfl, -⟩ := List.cons.inj same
          exact absurd here (valid.disjoint s named')
      | cons r front' =>
          obtain ⟨rfl, rest⟩ := List.cons.inj same
          obtain ⟨rfl, both⟩ := ih later (List.forall_mem_cons.1 terminal').2 rest
          exact ⟨rfl, both⟩

namespace LeftmostDerives

variable (valid : g.WellFormed)

include valid

theorem eq_nil (leftmost : g.LeftmostDerives u steps v) (terminal : g.TerminalString u) :
    steps = [] := by
  cases leftmost with
  | refl => rfl
  | @expand head _ front back _ _ _ inside _ =>
      have among : head ∈ front ++ head :: back := by simp
      exact absurd (terminal head among) (valid.disjoint head (mem_names_of_mem_bodies inside))

theorem exists_body {head : Symbol} {front back : List Symbol}
    (leftmost : g.LeftmostDerives u steps w) (split : u = front ++ head :: back)
    (plain : g.TerminalString front) (named : head ∈ g.names) (terminal : g.TerminalString w) :
    ∃ b ∈ g.bodies head, ∃ later, steps = (head, b) :: later ∧
      g.LeftmostDerives (front ++ (Body.symbols b ++ back)) later w := by
  cases leftmost with
  | refl =>
      have among : head ∈ u := by simp [split]
      exact absurd (terminal head among) (valid.disjoint head named)
  | expand plain' inside later =>
      obtain ⟨rfl, rfl, rfl⟩ :=
        valid.first_nonTerminal plain' plain (mem_names_of_mem_bodies inside) named split
      exact ⟨_, inside, _, rfl, later⟩

theorem exists_rest {front : List Symbol} (leftmost : g.LeftmostDerives (front ++ u) steps w)
    (plain : g.TerminalString front) : ∃ rest, w = front ++ rest ∧ g.Derives u rest := by
  obtain ⟨x, rest, rfl, left, right⟩ := derives_append_iff.1 leftmost.derives
  rw [valid.eq_of_derives left plain]
  exact ⟨rest, rfl, right⟩

end LeftmostDerives

end Grammar

end Predictive
