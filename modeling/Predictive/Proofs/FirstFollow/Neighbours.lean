import Predictive.Proofs.FirstFollow.Following

set_option autoImplicit false

namespace Predictive

namespace Grammar

variable {g : Grammar} {t name head : Symbol} {u v : List Symbol}

theorem Derives.predicts (derived : g.Derives u v) (predicts : g.Predicts head v t) :
    g.Predicts head u t := by
  rcases predicts with ⟨terminal, rest, later⟩ | ⟨empty, behind⟩
  · exact .inl ⟨terminal, rest, derived.trans later⟩
  · exact .inr ⟨derived.trans empty, behind⟩

/-- An occurrence in a derived form goes back to one symbol `s` of the form that derives it. Of what
stands behind the occurrence a part `inner` comes from `s`, and the part `outer` from what stands
behind `s`; if `inner` as an expansion of `s` calls for a mark, then this follows the occurrence. -/
theorem Derives.exists_origin (derived : g.Derives u v) {front rest : List Symbol}
    (split : v = front ++ name :: rest) :
    ∃ before s after inner outer, u = before ++ s :: after ∧ rest = inner ++ outer ∧
      g.Derives after outer ∧ ∀ t, g.Predicts s inner t → g.Follows name t := by
  induction derived generalizing front rest with
  | nil =>
      have long := congrArg List.length split
      simp at long
  | @keep u v s later ih =>
      cases front with
      | nil =>
          obtain ⟨rfl, rfl⟩ := List.cons.inj split
          refine ⟨[], s, u, [], v, rfl, rfl, later, fun t predicts => ?_⟩
          rcases predicts with opens | ⟨-, behind⟩
          · exact absurd opens not_opens_nil
          · exact behind
      | cons r front =>
          obtain ⟨rfl, further⟩ := List.cons.inj split
          obtain ⟨before, s', after, inner, outer, rfl, rest', behind, calls⟩ := ih further
          exact ⟨s :: before, s', after, inner, outer, rfl, rest', behind, calls⟩
  | @expand head b u v w inside _ later ihFront ihRest =>
      -- an occurrence to the right of what `head` has become comes from the rest of the form
      have right (more : List Symbol) (there : w = more ++ name :: rest) :
          ∃ before s after inner outer, head :: u = before ++ s :: after ∧ rest = inner ++ outer ∧
            g.Derives after outer ∧ ∀ t, g.Predicts s inner t → g.Follows name t := by
        obtain ⟨before, s, after, inner, outer, rfl, rest', behind, calls⟩ := ihRest there
        exact ⟨head :: before, s, after, inner, outer, rfl, rest', behind, calls⟩
      rcases List.append_eq_append_iff.1 split with ⟨more, -, there⟩ | ⟨less, here, there⟩
      · exact right more there
      · cases less with
        | nil => exact right [] there.symm
        | cons r less =>
            obtain ⟨rfl, rfl⟩ := List.cons.inj there
            obtain ⟨before, s, after, inner, outer, body, rfl, behind, calls⟩ := ihFront here
            refine ⟨[], head, u, inner ++ outer, w, rfl, rfl, later, fun t predicts => ?_⟩
            exact calls t (predicts.of_append fun outside =>
              follows_of_predicts inside body (behind.predicts outside))

/-- Whatever stands behind an occurrence in a form that `head` derives, what this calls for as an
expansion of `head` follows the occurrence. -/
theorem follows_of_derives {front rest : List Symbol}
    (derived : g.Derives [head] (front ++ name :: rest)) (predicts : g.Predicts head rest t) :
    g.Follows name t := by
  obtain ⟨before, s, after, inner, outer, single, rfl, behind, calls⟩ := derived.exists_origin rfl
  obtain ⟨rfl, rfl, rfl⟩ : before = [] ∧ s = head ∧ after = [] := by
    cases before with
    | nil => simpa [eq_comm] using single
    | cons r before => simp at single
  obtain rfl := derives_nil_iff.1 behind
  rw [List.append_nil] at predicts
  exact calls t predicts

theorem follows_of_derives_cons {front rest : List Symbol} (terminal : t ∈ g.terminals)
    (derived : g.Derives [head] (front ++ name :: t :: rest)) : g.Follows name t :=
  follows_of_derives derived (.inl ⟨terminal, rest, Derives.refl g _⟩)

theorem follows_endMark_of_derives {front : List Symbol}
    (derived : g.Derives [g.start] (front ++ [name])) : g.Follows name endMark :=
  follows_of_derives derived (.inr ⟨.nil, .start⟩)

theorem exists_lookahead (y : List Symbol) : ∃ t rest, y ++ [endMark] = t :: rest :=
  List.exists_cons_of_ne_nil (by simp)

/-- In the place of a non-terminal in a form of the start symbol, a form is called for by what comes
next in a terminal string, or by the end mark behind it. -/
theorem predicts_of_derives {front back y rest : List Symbol}
    (reached : g.Derives [g.start] (front ++ head :: back))
    (derived : g.Derives (u ++ back) y) (terminal : g.TerminalString y)
    (input : y ++ [endMark] = t :: rest) : g.Predicts head u t := by
  have whole : g.Predicts g.start y t := by
    cases y with
    | nil =>
        obtain ⟨rfl, -⟩ := List.cons.inj input
        exact .inr ⟨.nil, .start⟩
    | cons s y =>
        obtain ⟨rfl, -⟩ := List.cons.inj input
        exact .inl ⟨terminal s List.mem_cons_self, y, Derives.refl g _⟩
  exact (derived.predicts whole).of_append (follows_of_derives reached)

/-- The non-terminal occurs in some form of the start symbol. -/
def Accessible (g : Grammar) (name : Symbol) : Prop :=
  ∃ front back, g.Derives [g.start] (front ++ name :: back)

/-- A mark is seen to follow: the end mark, with the non-terminal last in a form of the start symbol,
or a terminal that stands right behind it in a form of some non-terminal. -/
def SeenBehind (g : Grammar) (name t : Symbol) : Prop :=
  t = endMark ∧ (∃ front, g.Derives [g.start] (front ++ [name])) ∨
    t ∈ g.terminals ∧ ∃ head ∈ g.names, ∃ front back, g.Derives [head] (front ++ name :: t :: back)

theorem seenBehind_endMark_iff (valid : g.WellFormed) :
    g.SeenBehind name endMark ↔ ∃ front, g.Derives [g.start] (front ++ [name]) := by
  have unmarked : endMark ∉ g.terminals :=
    fun terminal => valid.noEndMark (mem_allSymbols.2 (.inr terminal))
  simp only [SeenBehind, unmarked, true_and, false_and, or_false]

theorem seenBehind_terminal_iff (valid : g.WellFormed) (terminal : t ∈ g.terminals) :
    g.SeenBehind name t ↔
      ∃ head ∈ g.names, ∃ front back, g.Derives [head] (front ++ name :: t :: back) := by
  have other : t ≠ endMark := valid.ne_endMark_of_mem (mem_allSymbols.2 (.inr terminal))
  simp only [SeenBehind, other, terminal, false_and, true_and, false_or]

theorem exists_neighbours_iff (valid : g.WellFormed)
    (accessible : ∀ head ∈ g.names, g.Accessible head) :
    (∃ head ∈ g.names, ∃ front back, g.Derives [head] (front ++ name :: t :: back)) ↔
      ∃ front back, g.Derives [g.start] (front ++ name :: t :: back) := by
  constructor
  · intro seen
    obtain ⟨head, known, front, back, inner⟩ := seen
    obtain ⟨before, after, outer⟩ := accessible head known
    have whole := outer.inside inner
    exact ⟨before ++ front, back ++ after, by simpa using whole⟩
  · intro seen
    obtain ⟨front, back, derived⟩ := seen
    exact ⟨g.start, valid.start, front, back, derived⟩

theorem SeenBehind.of_head {b : Body} {front rest : List Symbol} (seen : g.SeenBehind head t)
    (inside : b ∈ g.bodies head) (split : Body.symbols b = front ++ name :: rest)
    (empty : g.Derives rest []) : g.SeenBehind name t := by
  have body : g.Derives [head] (front ++ [name]) := by
    refine derives_of_mem_bodies inside ?_
    rw [split]
    exact (Derives.refl g front).append (.keep name empty)
  rcases seen with ⟨rfl, before, derived⟩ | ⟨terminal, top, named, before, back, derived⟩
  · have whole := derived.inside body
    exact .inl ⟨rfl, before ++ front, by simpa using whole⟩
  · have whole := derived.inside body
    exact .inr ⟨terminal, top, named, before ++ front, back, by simpa using whole⟩

/-- What follows by the rules is what is seen to follow in the derived forms. -/
theorem follows_iff : g.Follows name t ↔ g.SeenBehind name t := by
  constructor
  · intro follows
    induction follows with
    | start => exact .inl ⟨rfl, [], Derives.refl g [g.start]⟩
    | @opened head name t b front rest inside split opens =>
        obtain ⟨terminal, back, derived⟩ := opens
        refine .inr ⟨terminal, head, mem_names_of_mem_bodies inside, front, back, ?_⟩
        refine derives_of_mem_bodies inside ?_
        rw [split]
        exact (Derives.refl g front).append (.keep name derived)
    | passed inside split empty _ seen => exact seen.of_head inside split empty
  · rintro (⟨rfl, front, derived⟩ | ⟨terminal, head, -, front, back, derived⟩)
    · exact follows_endMark_of_derives derived
    · exact follows_of_derives_cons terminal derived

end Grammar

end Predictive
