import Predictive.Grammar.Derivation
import Predictive.Proofs.Grammar.WellFormed

set_option autoImplicit false

namespace Predictive

namespace Grammar

variable {g : Grammar} {name : Symbol} {u v rest : List Symbol}

/-- `name` derives `v` by one or more expansions. -/
def Yields (g : Grammar) (name : Symbol) (v : List Symbol) : Prop :=
  ∃ b ∈ g.bodies name, g.Derives (Body.symbols b) v

/-- Some expansions of `name` lead to a form that begins with it. -/
def LeftRecursive (g : Grammar) (name : Symbol) : Prop := ∃ rest, g.Yields name (name :: rest)

/-- Some expansions of `name` lead back to it alone. -/
def Cyclic (g : Grammar) (name : Symbol) : Prop := g.Yields name [name]

theorem Yields.derives (yields : g.Yields name v) : g.Derives [name] v := by
  obtain ⟨b, inside, derived⟩ := yields
  exact derives_of_mem_bodies inside derived

theorem derives_singleton_iff {s : Symbol} : g.Derives [s] v ↔ v = [s] ∨ g.Yields s v := by
  constructor
  · intro derived
    generalize source : [s] = form at derived
    cases derived with
    | nil => contradiction
    | keep _ rest =>
        obtain ⟨rfl, rfl⟩ := List.cons.inj source
        rw [derives_nil_iff.1 rest]
        exact .inl rfl
    | expand inside front rest =>
        obtain ⟨rfl, rfl⟩ := List.cons.inj source
        rw [derives_nil_iff.1 rest, List.append_nil]
        exact .inr ⟨_, inside, front⟩
  · rintro (rfl | yields)
    · exact Derives.refl g [s]
    · exact yields.derives

theorem Yields.trans (yields : g.Yields name u) (derived : g.Derives u v) : g.Yields name v := by
  obtain ⟨b, inside, first⟩ := yields
  exact ⟨b, inside, first.trans derived⟩

section Order

variable {R : Symbol → Symbol → Prop} (trans : ∀ a b c : Symbol, R a b → R b c → R a c)
  (corner : ∀ head, ∀ b ∈ g.bodies head, ∀ front s back, Body.symbols b = front ++ s :: back →
    g.Derives front [] → s ∈ g.names → R head s)

include trans corner in
/-- A form that derives one with a non-terminal in front has a non-terminal in front that is this
one or above it, when what derives the empty form is taken away. -/
theorem exists_corner (named : name ∈ g.names) (derived : g.Derives u v)
    (begins : v = name :: rest) : ∃ front s back, u = front ++ s :: back ∧ g.Derives front [] ∧
      s ∈ g.names ∧ (s = name ∨ R s name) := by
  induction derived generalizing rest with
  | nil => contradiction
  | @keep u v s _ _ =>
      obtain ⟨rfl, -⟩ := List.cons.inj begins
      exact ⟨[], s, u, rfl, .nil, named, .inl rfl⟩
  | @expand head b u v w inside derivedFront _ ihFront ihRest =>
      cases v with
      | nil =>
          obtain ⟨front, s, back, rfl, empty, known, order⟩ := ihRest begins
          exact ⟨head :: front, s, back, rfl, .expand inside derivedFront empty, known, order⟩
      | cons first v =>
          obtain ⟨rfl, -⟩ := List.cons.inj begins
          obtain ⟨front, s, back, split, empty, known, order⟩ := ihFront rfl
          have lower := corner head b inside front s back split empty known
          refine ⟨[], head, u, rfl, .nil, mem_names_of_mem_bodies inside, .inr ?_⟩
          rcases order with rfl | order
          · exact lower
          · exact trans _ _ _ lower order

include trans corner in
/-- If every left corner is below its head in an order, there is no left recursion. -/
theorem not_leftRecursive (irrefl : ∀ a, ¬ R a a) : ¬ g.LeftRecursive name := by
  intro recursive
  obtain ⟨rest, b, inside, derived⟩ := recursive
  obtain ⟨front, s, back, split, empty, known, order⟩ :=
    exists_corner trans corner (mem_names_of_mem_bodies inside) derived rfl
  have lower := corner name b inside front s back split empty known
  rcases order with rfl | order
  · exact irrefl s lower
  · exact irrefl name (trans _ _ _ lower order)

end Order

/-- If a non-terminal comes back in front of what one of its bodies derives, then this body has a
left-recursive symbol. -/
theorem exists_leftRecursive {b : Body} (inside : b ∈ g.bodies name)
    (back : g.Derives (Body.symbols b) (name :: rest)) :
    ∃ s ∈ Body.symbols b, g.LeftRecursive s := by
  -- the order is that of what comes to stand in front
  have trans (a b c : Symbol) (first : ∃ u, g.Yields a (b :: u)) (second : ∃ u, g.Yields b (c :: u)) :
      ∃ u, g.Yields a (c :: u) := by
    obtain ⟨u, yields⟩ := first
    obtain ⟨v, further⟩ := second
    exact ⟨v ++ u, yields.trans (further.derives.append (Derives.refl g u))⟩
  have corner (head : Symbol) (b : Body) (inside : b ∈ g.bodies head) (front : List Symbol)
      (s : Symbol) (rest : List Symbol) (split : Body.symbols b = front ++ s :: rest)
      (empty : g.Derives front []) (_ : s ∈ g.names) : ∃ u, g.Yields head (s :: u) := by
    refine ⟨rest, b, inside, ?_⟩
    rw [split]
    exact empty.append (Derives.refl g (s :: rest))
  have named := mem_names_of_mem_bodies inside
  obtain ⟨front, s, behind, split, empty, known, order⟩ := exists_corner trans corner named back rfl
  have among : s ∈ Body.symbols b := by simp [split]
  have down := corner name b inside front s behind split empty known
  rcases order with rfl | up
  · exact ⟨s, among, down⟩
  · exact ⟨s, among, trans s name s up down⟩

section Empty

theorem eq_nil_of_derives_nil (full : ∀ head, ∀ b ∈ g.bodies head, Body.symbols b ≠ [])
    (derived : g.Derives u v) (empty : v = []) : u = [] := by
  induction derived with
  | nil => rfl
  | keep => contradiction
  | expand inside _ _ ihFront _ =>
      obtain ⟨nothing, -⟩ := List.append_eq_nil_iff.1 empty
      exact absurd (ihFront nothing) (full _ _ inside)

end Empty

end Grammar

end Predictive
