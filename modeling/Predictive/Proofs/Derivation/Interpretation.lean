import Predictive.Grammar.Derivation

set_option autoImplicit false

/-
Reading forms under an interpretation of their symbols. What a grammar derives without any
non-terminal left is the least interpretation that is closed under its productions
(`Interprets.reads`), so two grammars are compared by giving one of them a meaning in terms of the
other.
-/

namespace Predictive

/-- `w` is a reading of the form when each of its symbols may stand for what `S` allows. -/
def Reads (S : Symbol → List Symbol → Prop) : List Symbol → List Symbol → Prop
  | [], w => w = []
  | s :: rest, w => ∃ front back, w = front ++ back ∧ S s front ∧ Reads S rest back

@[simp] theorem reads_nil {S : Symbol → List Symbol → Prop} {w : List Symbol} :
    Reads S [] w ↔ w = [] := Iff.rfl

theorem reads_cons {S : Symbol → List Symbol → Prop} {s : Symbol} {rest w : List Symbol} :
    Reads S (s :: rest) w ↔ ∃ front back, w = front ++ back ∧ S s front ∧ Reads S rest back :=
  Iff.rfl

theorem reads_append {S : Symbol → List Symbol → Prop} {u v w : List Symbol} :
    Reads S (u ++ v) w ↔ ∃ front back, w = front ++ back ∧ Reads S u front ∧ Reads S v back := by
  induction u generalizing w with
  | nil =>
      constructor
      · intro read
        exact ⟨[], w, rfl, rfl, read⟩
      · intro found
        rcases found with ⟨front, back, rfl, rfl, read⟩
        exact read
  | cons s u ih =>
      rw [List.cons_append, reads_cons]
      constructor
      · intro found
        rcases found with ⟨first, rest, rfl, head, tail⟩
        obtain ⟨middle, back, rfl, left, right⟩ := ih.1 tail
        exact ⟨first ++ middle, back, by rw [List.append_assoc],
          ⟨first, middle, rfl, head, left⟩, right⟩
      · intro found
        rcases found with ⟨front, back, rfl, ⟨first, middle, rfl, head, left⟩, right⟩
        exact ⟨first, middle ++ back, by rw [List.append_assoc], head,
          ih.2 ⟨middle, back, rfl, left, right⟩⟩

@[simp] theorem reads_singleton {S : Symbol → List Symbol → Prop} {s : Symbol} {w : List Symbol} :
    Reads S [s] w ↔ S s w := by
  constructor
  · intro found
    rcases found with ⟨front, back, rfl, head, rfl⟩
    rwa [List.append_nil]
  · intro head
    exact ⟨w, [], by rw [List.append_nil], head, rfl⟩

theorem Reads.imp {S T : Symbol → List Symbol → Prop} {u w : List Symbol} (read : Reads S u w)
    (weaker : ∀ s ∈ u, ∀ v, S s v → T s v) : Reads T u w := by
  induction u generalizing w with
  | nil => exact read
  | cons s u ih =>
      obtain ⟨front, back, rfl, head, tail⟩ := read
      exact ⟨front, back, rfl, weaker s List.mem_cons_self front head,
        ih tail fun r inside => weaker r (List.mem_cons_of_mem s inside)⟩

namespace Grammar

/-- Only terminals occur in `w`. -/
def TerminalString (g : Grammar) (w : List Symbol) : Prop := ∀ s ∈ w, s ∈ g.terminals

theorem terminalString_append {g : Grammar} {u v : List Symbol} :
    g.TerminalString (u ++ v) ↔ g.TerminalString u ∧ g.TerminalString v :=
  List.forall_mem_append

/-- An interpretation under which every terminal stands for itself, and every non-terminal at least
for what its bodies stand for. -/
structure Interprets (g : Grammar) (S : Symbol → List Symbol → Prop) : Prop where
  self : ∀ s ∈ g.terminals, S s [s]
  body : ∀ name, ∀ b ∈ g.bodies name, ∀ w, g.TerminalString w → Reads S (Body.symbols b) w →
    S name w

/-- The terminal strings that a form derives are readings of it under every interpretation of the
grammar. -/
theorem Interprets.reads {g : Grammar} {S : Symbol → List Symbol → Prop} (meaning : g.Interprets S)
    {u w : List Symbol} (derived : g.Derives u w) (terminal : g.TerminalString w) :
    Reads S u w := by
  induction derived with
  | nil => rfl
  | @keep u v s _ ih =>
      obtain ⟨head, tail⟩ := List.forall_mem_cons.1 terminal
      exact ⟨[s], v, rfl, meaning.self s head, ih tail⟩
  | @expand name body u v w inside _ _ ihFront ihRest =>
      obtain ⟨front, back⟩ := terminalString_append.1 terminal
      exact ⟨v, w, rfl, meaning.body name body inside v front (ihFront front), ihRest back⟩

theorem reads_derives_iff {g : Grammar} {u w : List Symbol} :
    Reads (fun s v => g.Derives [s] v) u w ↔ g.Derives u w := by
  induction u generalizing w with
  | nil => exact derives_nil_iff.symm
  | cons s u ih =>
      have parts : g.Derives ([s] ++ u) w ↔ _ := derives_append_iff
      simp only [reads_cons, ih]
      exact parts.symm

theorem exists_body_of_derives {g : Grammar} {name : Symbol} {w : List Symbol}
    (apart : ¬ name ∈ g.terminals) (derived : g.Derives [name] w) (terminal : g.TerminalString w) :
    ∃ b ∈ g.bodies name, g.Derives (Body.symbols b) w := by
  cases derived with
  | keep => exact absurd (terminal name List.mem_cons_self) apart
  | @expand _ body _ v rest inside front tail =>
      cases tail
      rw [List.append_nil]
      exact ⟨body, inside, front⟩

/-- A grammar that respects every production of another derives the terminal strings that the other
derives. -/
theorem derives_of_respects {g g' : Grammar}
    (respects : ∀ name, ∀ b ∈ g.bodies name, ∀ w, g.TerminalString w →
      g'.Derives (Body.symbols b) w → g'.Derives [name] w)
    {u w : List Symbol} (derived : g.Derives u w) (terminal : g.TerminalString w) :
    g'.Derives u w := by
  have meaning : g.Interprets fun s v => g'.Derives [s] v :=
    { self := fun s _ => Derives.refl g' [s]
      body := fun name b inside v inner read =>
        respects name b inside v inner (reads_derives_iff.1 read) }
  exact reads_derives_iff.1 (meaning.reads derived terminal)

end Grammar

end Predictive
