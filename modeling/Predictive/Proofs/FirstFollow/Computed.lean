import Predictive.Proofs.FirstFollow.Follow

set_option autoImplicit false

namespace Predictive

namespace Grammar

variable {g g' h r : Grammar} {name t : Symbol} {P Q : Symbol → Symbol → Prop}

theorem reading_resetFirstFollow {β : Type} {read : NonTerminal → β} {absent : β}
    (new : ∀ name bodies, read (.ofProductions name bodies) = absent) (g : Grammar) (name : Symbol) :
    g.resetFirstFollow.reading read absent name = absent := by
  simp only [reading, resetFirstFollow, OrderedMap.get?_mapValues]
  cases g.nonTerminals.get? name with
  | none => rfl
  | some entry => exact new entry.name entry.productions

theorem sameRules_resetFirstFollow (g : Grammar) : g.SameRules g.resetFirstFollow where
  start := rfl
  terminals := rfl
  names := OrderedMap.keys_mapValues g.nonTerminals _
  entryNames key := by
    simp only [entryName, resetFirstFollow, OrderedMap.get?_mapValues]
    cases g.nonTerminals.get? key <;> rfl
  bodies name := by
    simp only [bodies, resetFirstFollow, OrderedMap.get?_mapValues]
    cases g.nonTerminals.get? name <;> rfl

theorem storedFirst_resetFirstFollow (g : Grammar) (name : Symbol) :
    g.resetFirstFollow.storedFirst name = ∅ := reading_resetFirstFollow (fun _ _ => rfl) g name

theorem storedFollow_resetFirstFollow (g : Grammar) (name : Symbol) :
    g.resetFirstFollow.storedFollow name = ∅ := reading_resetFirstFollow (fun _ _ => rfl) g name

theorem storedNullable_resetFirstFollow (g : Grammar) (name : Symbol) :
    g.resetFirstFollow.storedNullable name = false :=
  reading_resetFirstFollow (fun _ _ => rfl) g name

theorem SameRules.computeFirstFollow_eq (same : g.SameRules g') :
    g'.computeFirstFollow = g.computeFirstFollow := by
  have reset : g'.resetFirstFollow = g.resetFirstFollow := by
    refine ext_stored ?_ rfl ?_ ?_ ?_
    · have left := (sameRules_resetFirstFollow g).symm
      exact (left.trans same).trans (sameRules_resetFirstFollow g')
    · intro name
      rw [storedFirst_resetFirstFollow, storedFirst_resetFirstFollow]
    · intro name
      rw [storedFollow_resetFirstFollow, storedFollow_resetFirstFollow]
    · intro name
      rw [storedNullable_resetFirstFollow, storedNullable_resetFirstFollow]
  rw [computeFirstFollow, computeFirstFollow, reset]

theorem firstState_resetFirstFollow (g : Grammar) :
    g.resetFirstFollow.FirstState P g.resetFirstFollow where
  toSameRules := .refl _
  flag := rfl
  follow _ := rfl
  nullable name := by
    rw [storedNullable_resetFirstFollow, storedFirst_resetFirstFollow]
    rfl
  supported name t inside := by
    rw [storedFirst_resetFirstFollow] at inside
    exact absurd inside (OrderedSet.not_mem_empty t)
  allowed name t inside := by
    rw [storedFirst_resetFirstFollow] at inside
    exact absurd inside (OrderedSet.not_mem_empty t)

/-- The stored sets hold all that the productions ask for. -/
structure Saturated (g : Grammar) : Prop where
  firsts : ∀ name, ∀ b ∈ g.bodies name, ∀ t, g.Begins t b → t ∈ g.storedFirst name
  marked : endMark ∈ g.storedFollow g.start
  follows : ∀ head b, (head, b) ∈ g.allProductions → g.Answers head b g g

/-- The grammar `r` has the rules of `g` and valid sets of its own, in which every mark is allowed
by `P` or `Q`. -/
structure Computed (g : Grammar) (P Q : Symbol → Symbol → Prop) (r : Grammar) : Prop extends
    g.SameRules r, r.Saturated where
  flag : r.firstFollowValid = true
  nullable : ∀ name, r.storedNullable name = decide (epsilon ∈ r.storedFirst name)
  allowedFirst : ∀ name, ∀ t ∈ r.storedFirst name, P name t
  allowedFollow : ∀ name, ∀ t ∈ r.storedFollow name, Q name t

/-- What the FOLLOW sets need is allowed, whatever allowed FIRST sets are stored. -/
def FollowAllowedAfter (g : Grammar) (P Q : Symbol → Symbol → Prop) : Prop :=
  Q g.start endMark ∧
    ∀ h, g.SameRules h → (∀ name, ∀ t ∈ h.storedFirst name, P name t) → h.FollowAllowed Q

theorem SameRules.bodiesKnown (same : g.SameRules g') (known : g.BodiesKnown) :
    g'.BodiesKnown := by
  intro name b inside s within
  rw [same.allSymbols]
  rw [same.bodies] at inside
  exact known name b inside s within

theorem SameRules.productionsKnown (same : g.SameRules g') (known : g.ProductionsKnown) :
    g'.ProductionsKnown where
  heads head b listed := by
    rw [same.allProductions] at listed
    rw [same.names]
    exact known.heads head b listed
  bodies := same.bodiesKnown known.bodies

theorem SameRules.firstAllowed (same : g.SameRules g') (allowed : g.FirstAllowed P) :
    g'.FirstAllowed P := by
  intro h rules fine name b inside
  rw [same.bodies] at inside
  exact allowed h (same.trans rules) fine name b inside

/-- The grammar with its FIRST sets and the end mark behind its start symbol, as the first pass over
the FOLLOW sets finds it. A start symbol that is no non-terminal has no FOLLOW set. -/
theorem followState_extendFollow (empty : ∀ name, g.storedFollow name = ∅)
    (allowed : Q g.start endMark) : g.FollowState Q (g.extendFollow g.start {endMark}) where
  toSameRules := sameRules_extendFollow g g.start {endMark}
  flag := rfl
  first := storedFirst_extendFollow g g.start {endMark}
  nullable := storedNullable_extendFollow g g.start {endMark}
  marked start :=
    (mem_storedFollow_extendFollow start).2 (.inr ⟨rfl, OrderedSet.mem_singleton.2 rfl⟩)
  allowed name t inside := by
    rcases of_mem_storedFollow_extendFollow inside with old | ⟨rfl, added⟩
    · rw [empty] at old
      exact absurd old (OrderedSet.not_mem_empty t)
    · rw [OrderedSet.mem_singleton.1 added]
      exact allowed

theorem FollowState.computed {mid last : Grammar} (rules : g.SameRules mid)
    (start : mid.start ∈ mid.names)
    (nullable : ∀ name, mid.storedNullable name = decide (epsilon ∈ mid.storedFirst name))
    (allowed : ∀ name, ∀ t ∈ mid.storedFirst name, P name t)
    (closed : ∀ name, ∀ b ∈ mid.bodies name, ∀ t, mid.Begins t b → t ∈ mid.storedFirst name)
    (state : mid.FollowState Q last)
    (answers : ∀ head b, (head, b) ∈ mid.allProductions → mid.Answers head b last last) :
    g.Computed P Q { last with firstFollowValid := true } := by
  generalize made : { last with firstFollowValid := true } = r
  have rules' : mid.SameRules r := by
    subst made
    exact ⟨state.start, state.terminals, state.names, state.entryNames, state.bodies⟩
  have first : ∀ name, r.storedFirst name = mid.storedFirst name := by
    subst made
    exact state.first
  have follow : ∀ name, r.storedFollow name = last.storedFollow name := by
    subst made
    exact fun _ => rfl
  have same {t : Symbol} {u : List Symbol} : r.Begins t u ↔ mid.Begins t u :=
    begins_congr rules'.names first
  exact
    { toSameRules := rules.trans rules'
      flag := by rw [← made]
      nullable := fun name => by
        rw [first, ← nullable, ← state.nullable, ← made]
        rfl
      allowedFirst := fun name t inside => by
        rw [first] at inside
        exact allowed name t inside
      allowedFollow := fun name t inside => by
        rw [follow] at inside
        exact state.allowed name t inside
      firsts := fun name b inside t begins => by
        rw [rules'.bodies] at inside
        rw [first]
        exact closed name b inside t (same.1 begins)
      marked := by
        rw [rules'.start, follow]
        exact state.marked start
      follows := fun head b listed front name rest split named => by
        rw [rules'.allProductions] at listed
        rw [rules'.names] at named
        obtain ⟨terminals, ends⟩ := answers head b listed front name rest split named
        rw [follow, follow]
        exact ⟨fun t mark begins => terminals t mark (same.1 begins),
          fun empty => ends (same.1 empty)⟩ }

/-- The computation answers, with nothing but what has to be allowed. -/
theorem exists_computed (known : g.ProductionsKnown) (start : g.start ∈ g.names)
    (firsts : g.FirstAllowed P) (fewFirsts : ∀ name t, P name t → t ∈ g.firstMarks)
    (follows : g.FollowAllowedAfter P Q) (fewFollows : ∀ name t, Q name t → t ∈ g.followMarks) :
    ∃ r, g.computeFirstFollow = .ok r ∧ g.Computed P Q r := by
  have reset := sameRules_resetFirstFollow g
  obtain ⟨mid, doneFirst, state, closed⟩ := computeFirst_spec (reset.bodiesKnown known.bodies)
    (reset.firstAllowed firsts) fewFirsts (firstState_resetFirstFollow g)
  have rules : g.SameRules mid := reset.trans state.toSameRules
  have start' : mid.start ∈ mid.names := by rwa [rules.start, rules.names]
  have begin : mid.FollowState Q (mid.extendFollow mid.start {endMark}) := by
    apply followState_extendFollow
    · intro name
      rw [state.follow, storedFollow_resetFirstFollow]
    · rw [rules.start]
      exact follows.1
  have fewFollows' : ∀ name t, Q name t → t ∈ mid.followMarks := by
    intro name t allowed
    rw [followMarks, rules.terminals]
    exact fewFollows name t allowed
  obtain ⟨last, doneFollow, state', answers⟩ := computeFollow_spec (rules.productionsKnown known)
    (follows.2 mid rules state.allowed) fewFollows' begin
  refine ⟨{ last with firstFollowValid := true }, ?_, ?_⟩
  · rw [computeFirstFollow, doneFirst]
    show (mid.computeFollow >>= _) = _
    exact bind_eq_ok_iff.2 ⟨last, doneFollow, rfl⟩
  · exact state'.computed rules start' state.nullable state.allowed closed answers

section Marks

theorem mem_firstMarks : t ∈ g.firstMarks ↔ t = epsilon ∨ t ∈ g.terminals := List.mem_cons

theorem mem_followMarks : t ∈ g.followMarks ↔ t = endMark ∨ t ∈ g.terminals := List.mem_cons

theorem Begins.mem_firstMarks {u : List Symbol} (begins : g.Begins t u) (known : g.Known u)
    (fine : ∀ name, ∀ t ∈ g.storedFirst name, t ∈ g.firstMarks) : t ∈ g.firstMarks := by
  induction u with
  | nil => exact Grammar.mem_firstMarks.2 (.inl begins)
  | cons s u ih =>
      obtain ⟨first, rest⟩ := List.forall_mem_cons.1 known
      by_cases mark : s = epsilon
      · subst mark
        exact ih (begins_epsilon_cons.1 begins) rest
      · by_cases named : s ∈ g.names
        · rcases (begins_name_cons mark named).1 begins with ⟨-, inside⟩ | ⟨-, later⟩
          · exact fine s t inside
          · exact ih later rest
        · obtain rfl := (begins_terminal_cons mark named).1 begins
          have terminal := (mem_allSymbols.1 (first.resolve_left mark)).resolve_left named
          exact Grammar.mem_firstMarks.2 (.inr terminal)

theorem SameRules.firstMarks (same : g.SameRules h) : h.firstMarks = g.firstMarks := by
  rw [Grammar.firstMarks, Grammar.firstMarks, same.terminals]

theorem BodiesKnown.firstAllowed (known : g.BodiesKnown) :
    g.FirstAllowed fun _ t => t ∈ g.firstMarks := by
  intro h same fine name b inside t begins
  have marks := same.firstMarks
  have here : h.Known b := by
    refine same.bodiesKnown known name b ?_
    rwa [same.bodies]
  rw [← marks]
  apply begins.mem_firstMarks here
  intro name t stored
  rw [marks]
  exact fine name t stored

theorem ProductionsKnown.followAllowed (known : g.ProductionsKnown) :
    g.FollowAllowedAfter (fun _ t => t ∈ g.firstMarks) fun _ t => t ∈ g.followMarks := by
  refine ⟨Grammar.mem_followMarks.2 (.inl rfl), ?_⟩
  intro h same fine head name rest occurs
  obtain ⟨-, front, inside⟩ := occurs
  have here : h.Known rest := fun s within =>
    (same.productionsKnown known).of_mem inside s
      (List.mem_append_right front (List.mem_cons_of_mem name within))
  refine ⟨fun t mark begins => ?_, fun _ t allowed => allowed⟩
  rw [← same.firstMarks] at fine
  have inside := begins.mem_firstMarks here fine
  rw [same.firstMarks] at inside
  exact Grammar.mem_followMarks.2 (.inr ((Grammar.mem_firstMarks.1 inside).resolve_left mark))

end Marks

theorem WellFormed.exists_computed (valid : g.WellFormed) :
    ∃ r, g.computeFirstFollow = .ok r ∧
      g.Computed (fun _ t => t ∈ g.firstMarks) (fun _ t => t ∈ g.followMarks) r :=
  Grammar.exists_computed valid.productionsKnown valid.start valid.bodiesKnown.firstAllowed
    (fun _ _ allowed => allowed) valid.productionsKnown.followAllowed (fun _ _ allowed => allowed)

/-- Where the stored sets are declared valid, computing them again changes nothing. -/
def Current (g : Grammar) : Prop := g.firstFollowValid = true → g.computeFirstFollow = .ok g

theorem current_of_invalid (stale : g.firstFollowValid = false) : g.Current := by
  intro valid
  rw [stale] at valid
  contradiction

theorem current_of_computeFirstFollow (valid : g.WellFormed) (done : g.computeFirstFollow = .ok r) :
    g.SameRules r ∧ r.Current := by
  obtain ⟨r', done', computed⟩ := valid.exists_computed
  obtain rfl := Except.ok.inj (done.symm.trans done')
  exact ⟨computed.toSameRules, fun _ => computed.computeFirstFollow_eq.trans done⟩

theorem Current.withFirstFollow_eq (current : g.Current) :
    g.withFirstFollow = g.computeFirstFollow := by
  rw [withFirstFollow]
  by_cases flag : g.firstFollowValid = true
  · rw [if_pos flag, current flag]
  · rw [if_neg flag]

end Grammar

end Predictive
