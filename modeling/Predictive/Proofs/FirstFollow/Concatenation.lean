import Predictive.Proofs.FirstFollow.Begins

set_option autoImplicit false

namespace Predictive

namespace Grammar

variable {g g' : Grammar} {s : Symbol} {u : List Symbol}

/-- The marks of one sequence before another, from those of the two. The second is asked for only if
the first can be empty. -/
def marksBefore (front back : Except Fault (OrderedSet Symbol)) :
    Except Fault (OrderedSet Symbol) := do
  let marks ← front
  if epsilon ∈ marks then
    let more ← back
    return marks.erase epsilon ∪ more
  else return marks

section MarksBefore

variable {marks : OrderedSet Symbol} {front : Except Fault (OrderedSet Symbol)}
  (back : Except Fault (OrderedSet Symbol))

theorem marksBefore_of_not_mem (never : epsilon ∉ marks) : marksBefore (.ok marks) back = .ok marks :=
  if_neg never

theorem marksBefore_of_mem (empty : epsilon ∈ marks) :
    marksBefore (.ok marks) back = back.map fun more => marks.erase epsilon ∪ more := by
  cases back with
  | error fault => exact if_pos empty
  | ok more => exact if_pos empty

theorem marksBefore_singleton_epsilon : marksBefore (.ok {epsilon}) back = back := by
  rw [marksBefore_of_mem back (OrderedSet.mem_singleton.2 rfl)]
  cases back with
  | error fault => rfl
  | ok more =>
      have nothing : ({epsilon} : OrderedSet Symbol).erase epsilon ∪ more = more := by
        ext t
        simp
      rw [Except.map, nothing]

theorem marksBefore_assoc (front middle : Except Fault (OrderedSet Symbol)) :
    marksBefore (marksBefore front middle) back = marksBefore front (marksBefore middle back) := by
  cases front with
  | error fault => rfl
  | ok marks =>
      by_cases empty : epsilon ∈ marks
      case neg =>
        rw [marksBefore_of_not_mem _ empty, marksBefore_of_not_mem _ empty,
          marksBefore_of_not_mem _ empty]
      case pos =>
        rw [marksBefore_of_mem _ empty, marksBefore_of_mem _ empty]
        cases middle with
        | error fault => rfl
        | ok more =>
            -- the first has lost its `&`, so the two can be empty if the second can
            have both : epsilon ∈ marks.erase epsilon ∪ more ↔ epsilon ∈ more := by simp
            by_cases empty' : epsilon ∈ more
            case neg =>
              rw [Except.map, marksBefore_of_not_mem _ (mt both.1 empty'),
                marksBefore_of_not_mem _ empty']
              rfl
            case pos =>
              rw [Except.map, marksBefore_of_mem _ (both.2 empty'), marksBefore_of_mem _ empty']
              cases back with
              | error fault => rfl
              | ok last =>
                  have same : (marks.erase epsilon ∪ more).erase epsilon ∪ last =
                      marks.erase epsilon ∪ (more.erase epsilon ∪ last) := by
                    ext t
                    simp only [OrderedSet.mem_union, OrderedSet.mem_erase]
                    tauto
                  simp only [Except.map, same]

theorem exists_marksBefore_iff : (∃ r, marksBefore front back = .ok r) ↔
    ∃ marks, front = .ok marks ∧ (epsilon ∈ marks → ∃ more, back = .ok more) := by
  cases front with
  | error fault => simp [marksBefore, bind, Except.bind]
  | ok marks =>
      by_cases empty : epsilon ∈ marks
      · rw [marksBefore_of_mem _ empty]
        cases back with
        | error fault => simp [Except.map, empty]
        | ok more => simp [Except.map]
      · simp [marksBefore_of_not_mem _ empty, empty]

end MarksBefore

/-- The marks of a symbol before a sequence; here the kinds of symbols are told apart. -/
theorem firstOf_cons (g : Grammar) (s : Symbol) (rest : List Symbol) :
    g.firstOf (s :: rest) = marksBefore (g.firstOf [s]) (g.firstOf rest) := by
  by_cases mark : s = epsilon
  · rw [firstOf, firstOf, if_pos mark, if_pos mark]
    exact (marksBefore_singleton_epsilon _).symm
  · rw [firstOf, firstOf, if_neg mark, if_neg mark]
    cases g.nonTerminals.get? s with
    | some entry =>
        by_cases empty : epsilon ∈ entry.first
        case neg =>
          simp only [empty, if_false]
          exact (marksBefore_of_not_mem _ empty).symm
        case pos =>
          have single : epsilon ∈ entry.first.erase epsilon ∪ {epsilon} := by simp
          have erased : (entry.first.erase epsilon ∪ {epsilon}).erase epsilon =
              entry.first.erase epsilon := by
            ext t
            simp only [OrderedSet.mem_union, OrderedSet.mem_erase, OrderedSet.mem_singleton]
            tauto
          simp only [empty, if_true]
          show _ = marksBefore (.ok (entry.first.erase epsilon ∪ {epsilon})) (g.firstOf rest)
          rw [marksBefore_of_mem _ single, erased]
          rfl
    | none =>
        by_cases terminal : s ∈ g.terminals
        · have alone : epsilon ∉ ({s} : OrderedSet Symbol) := fun inside =>
            mark (OrderedSet.mem_singleton.1 inside).symm
          simp only [terminal, if_true]
          exact (marksBefore_of_not_mem _ alone).symm
        · simp only [terminal, if_false]
          rfl

theorem firstOf_append (g : Grammar) (u v : List Symbol) :
    g.firstOf (u ++ v) = marksBefore (g.firstOf u) (g.firstOf v) := by
  induction u with
  | nil => exact (marksBefore_singleton_epsilon _).symm
  | cons s u ih =>
      calc g.firstOf (s :: (u ++ v))
        _ = marksBefore (g.firstOf [s]) (g.firstOf (u ++ v)) := firstOf_cons g s (u ++ v)
        _ = marksBefore (g.firstOf [s]) (marksBefore (g.firstOf u) (g.firstOf v)) := by rw [ih]
        _ = marksBefore (marksBefore (g.firstOf [s]) (g.firstOf u)) (g.firstOf v) :=
          (marksBefore_assoc _ _ _).symm
        _ = marksBefore (g.firstOf (s :: u)) (g.firstOf v) := by rw [← firstOf_cons]

theorem known_of_firstOf_singleton {marks : OrderedSet Symbol} (done : g.firstOf [s] = .ok marks) :
    g.Known [s] := by
  refine List.forall_mem_singleton.2 ?_
  by_cases mark : s = epsilon
  · exact .inl mark
  · refine .inr (mem_allSymbols.2 ?_)
    rw [firstOf, if_neg mark] at done
    cases found : g.nonTerminals.get? s with
    | some entry => exact .inl (OrderedMap.mem_of_get?_eq_some found)
    | none =>
        by_cases terminal : s ∈ g.terminals
        · exact .inr terminal
        · simp only [found, terminal, if_false] at done
          contradiction

section Grows

variable (grows : g.FirstGrows g') (names : g'.names = g.names)
  (terminals : g'.terminals = g.terminals)

include grows names in
theorem FirstGrows.mem_firstOf {marks marks' : OrderedSet Symbol} (done : g.firstOf u = .ok marks)
    (done' : g'.firstOf u = .ok marks') : ∀ t ∈ marks, t ∈ marks' := fun _ inside =>
  (Grammar.mem_firstOf done').2 (grows.begins names ((Grammar.mem_firstOf done).1 inside))

include grows names terminals in
theorem FirstGrows.exists_firstOf {marks' : OrderedSet Symbol} (done : g'.firstOf u = .ok marks') :
    ∃ marks, g.firstOf u = .ok marks := by
  induction u generalizing marks' with
  | nil => exact ⟨_, rfl⟩
  | cons s u ih =>
      rw [firstOf_cons] at done
      rw [firstOf_cons, exists_marksBefore_iff]
      obtain ⟨front', first', later⟩ := (exists_marksBefore_iff _).1 ⟨marks', done⟩
      have known : g.Known [s] := by
        have := known_of_firstOf_singleton first'
        rwa [Known, allSymbols, names, terminals] at this
      obtain ⟨front, first⟩ := Grammar.exists_firstOf known
      refine ⟨front, first, fun empty => ?_⟩
      obtain ⟨back', rest⟩ := later (grows.mem_firstOf names first first' epsilon empty)
      exact ih rest

end Grows

/-- Whatever FIRST sets are stored: FIRST of a concatenation is that of its first part if this lacks
`&`, and else that without `&` united with FIRST of the second part; it fails as the first part fails,
or as the second does where that is asked for. If another grammar has the same symbols and stores at
least the same marks, then wherever it answers on a body this one does too, with no mark that the
other's answer lacks. -/
theorem firstOf_append_and_grows :
    (∀ (g : Grammar) (u v : Body), g.firstOf (u ++ v) = do
      let front ← g.firstOf u
      if epsilon ∈ front then
        let back ← g.firstOf v
        return front.erase epsilon ∪ back
      else return front) ∧
    ∀ g g' : Grammar, g'.names = g.names → g'.terminals = g.terminals → g.FirstGrows g' →
      ∀ (u : Body) (marks' : OrderedSet Symbol), g'.firstOf u = .ok marks' →
        ∃ marks, g.firstOf u = .ok marks ∧ ∀ t ∈ marks, t ∈ marks' := by
  refine ⟨firstOf_append, fun g g' names terminals grows u marks' done => ?_⟩
  obtain ⟨marks, answered⟩ := grows.exists_firstOf names terminals done
  exact ⟨marks, answered, grows.mem_firstOf names answered done⟩

theorem firstGrows_iff :
    g.FirstGrows g' ↔ ∀ name ∈ g.names, ∀ t ∈ (g.storedFirst name).toList, t ∈ g'.storedFirst name := by
  constructor
  · intro grows name _ t inside
    exact grows name t inside
  · intro grows name t inside
    by_cases named : name ∈ g.names
    · exact grows name named t inside
    · rw [storedFirst_of_not_mem named] at inside
      exact absurd inside (OrderedSet.not_mem_empty t)

/-- A state that stores these FIRST sets for `A` and `B`, whatever their bodies begin with. -/
def storing (first second : List Symbol) : Grammar where
  start := "A"
  nonTerminals :=
    .insert (.insert ∅ "A" ⟨"A", .ofList [["B", "a"]], .ofList first, ∅, false⟩) "B"
      ⟨"B", .ofList [["B"], ["b"]], .ofList second, .ofList ["A"], true⟩
  terminals := .ofList ["a", "b"]
  firstFollowValid := true

/-- Here `B` can be empty and `A` cannot. -/
def narrowSets : Grammar := storing ["a"] ["b", epsilon]

/-- Here both can be empty, and `B` has a mark that is no symbol. -/
def wideSets : Grammar := storing ["a", epsilon] ["b", epsilon, "?"]

/-- What stands behind `A` is asked for only if `A` can be empty. -/
theorem narrowSets_append_and_grows :
    narrowSets.firstOf (["B", epsilon] ++ ["A", "Z"]) = .ok (.ofList ["a", "b"]) ∧
      wideSets.firstOf ["A", "Z"] = .error (.unknownSymbol "Z") ∧
      narrowSets.FirstGrows wideSets ∧
      wideSets.firstOf ["B", epsilon, "A"] = .ok (.ofList ["a", "b", "?", epsilon]) ∧
      ∃ marks, narrowSets.firstOf ["B", epsilon, "A"] = .ok marks ∧
        ∀ t ∈ marks, t ∈ OrderedSet.ofList ["a", "b", "?", epsilon] := by
  obtain ⟨append, mono⟩ := firstOf_append_and_grows
  have joined : narrowSets.firstOf (["B", epsilon] ++ ["A", "Z"]) = .ok (.ofList ["a", "b"]) :=
    append narrowSets ["B", epsilon] ["A", "Z"]
  have grows : narrowSets.FirstGrows wideSets := firstGrows_iff.2 (by decide)
  have wide : wideSets.firstOf ["B", epsilon, "A"] = .ok (.ofList ["a", "b", "?", epsilon]) := rfl
  exact ⟨joined, rfl, grows, wide, mono narrowSets wideSets rfl rfl grows _ _ wide⟩

end Grammar

end Predictive
