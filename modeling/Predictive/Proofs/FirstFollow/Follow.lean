import Predictive.Proofs.FirstFollow.First

set_option autoImplicit false

namespace Predictive

namespace Grammar

variable {g h h' : Grammar} {name t : Symbol} {Q : Symbol → Symbol → Prop}

theorem sameRules_extendFollow (g : Grammar) (name : Symbol) (marks : OrderedSet Symbol) :
    g.SameRules (g.extendFollow name marks) := sameRules_overwrite fun _ => rfl

theorem storedFirst_extendFollow (g : Grammar) (name : Symbol) (marks : OrderedSet Symbol)
    (other : Symbol) : (g.extendFollow name marks).storedFirst other = g.storedFirst other :=
  reading_overwrite fun _ => rfl

theorem storedNullable_extendFollow (g : Grammar) (name : Symbol) (marks : OrderedSet Symbol)
    (other : Symbol) :
    (g.extendFollow name marks).storedNullable other = g.storedNullable other :=
  reading_overwrite fun _ => rfl

theorem of_mem_storedFollow_extendFollow {marks : OrderedSet Symbol} {other : Symbol}
    (inside : t ∈ (g.extendFollow name marks).storedFollow other) :
    t ∈ g.storedFollow other ∨ other = name ∧ t ∈ marks := by
  simp only [storedFollow, extendFollow, overwrite, OrderedMap.get?_modify] at inside ⊢
  by_cases same : other = name
  · subst same
    cases found : g.nonTerminals.get? other with
    | none => simp [found] at inside
    | some entry => simpa [found] using inside
  · left
    simpa [same] using inside

theorem mem_storedFollow_extendFollow (named : name ∈ g.names) {marks : OrderedSet Symbol}
    {other : Symbol} : t ∈ (g.extendFollow name marks).storedFollow other ↔
      t ∈ g.storedFollow other ∨ other = name ∧ t ∈ marks := by
  simp only [storedFollow, extendFollow, overwrite, OrderedMap.get?_modify]
  by_cases same : other = name
  · obtain ⟨entry, found⟩ := exists_entry named
    subst same
    simp [found]
  · simp [same]

theorem isNonTerminal_iff : g.isNonTerminal name = true ↔ name ∈ g.names := decide_eq_true_iff

theorem mem_allProductions_iff {head : Symbol} {b : Body} :
    (head, b) ∈ g.allProductions ↔ ∃ key, g.entryName key = head ∧ b ∈ g.bodies key := by
  rw [allProductions, OrderedSet.mem_toList, productionSet, OrderedSet.mem_ofList, List.mem_flatMap]
  constructor
  · intro found
    obtain ⟨entry, listed, inside⟩ := found
    obtain ⟨b', among, same⟩ := List.mem_map.1 inside
    obtain ⟨rfl, rfl⟩ := Prod.mk.inj same
    obtain ⟨key, held⟩ := OrderedMap.mem_values.1 listed
    exact ⟨key, by rw [entryName, held], by rw [bodies, held]; exact among⟩
  · intro found
    obtain ⟨key, same, inside⟩ := found
    obtain ⟨entry, held⟩ := exists_entry (mem_names_of_mem_bodies inside)
    rw [bodies, held] at inside
    rw [entryName, held] at same
    exact ⟨entry, OrderedMap.mem_values.2 ⟨key, held⟩, List.mem_map.2 ⟨b, inside, by rw [← same]⟩⟩

theorem Named.mem_allProductions (named : g.Named) {head : Symbol} {b : Body} :
    (head, b) ∈ g.allProductions ↔ b ∈ g.bodies head := by
  rw [mem_allProductions_iff]
  constructor
  · rintro ⟨key, same, inside⟩
    rw [named_iff.1 named] at same
    rwa [← same]
  · exact fun inside => ⟨head, named_iff.1 named head, inside⟩

theorem SameRules.allProductions (same : g.SameRules h) : h.allProductions = g.allProductions := by
  have sets : h.productionSet = g.productionSet := by
    ext production
    rw [← OrderedSet.mem_toList, ← OrderedSet.mem_toList]
    show (production.1, production.2) ∈ h.allProductions ↔
      (production.1, production.2) ∈ g.allProductions
    simp only [mem_allProductions_iff, same.entryNames, same.bodies]
  rw [Grammar.allProductions, Grammar.allProductions, sets]

/-- More marks are stored to follow the non-terminals. -/
def FollowGrows (g g' : Grammar) : Prop :=
  ∀ name, ∀ t ∈ g.storedFollow name, t ∈ g'.storedFollow name

theorem FollowGrows.refl (g : Grammar) : g.FollowGrows g := fun _ _ inside => inside

theorem FollowGrows.trans {g' g'' : Grammar} (first : g.FollowGrows g')
    (second : g'.FollowGrows g'') : g.FollowGrows g'' :=
  fun name t inside => second name t (first name t inside)

theorem followGrows_extendFollow (named : name ∈ g.names) (marks : OrderedSet Symbol) :
    g.FollowGrows (g.extendFollow name marks) :=
  fun _ _ inside => (mem_storedFollow_extendFollow named).2 (.inl inside)

/-- What the productions mention is known: their heads are non-terminals, and their bodies hold nothing
but symbols of the grammar and `&`. -/
structure ProductionsKnown (g : Grammar) : Prop where
  heads : ∀ head b, (head, b) ∈ g.allProductions → head ∈ g.names
  bodies : g.BodiesKnown

theorem ProductionsKnown.of_mem (known : g.ProductionsKnown) {head : Symbol} {b : Body}
    (listed : (head, b) ∈ g.allProductions) : g.Known b := by
  obtain ⟨key, -, inside⟩ := mem_allProductions_iff.1 listed
  exact known.bodies key b inside

theorem WellFormed.productionsKnown (valid : g.WellFormed) : g.ProductionsKnown where
  heads _ _ listed := mem_names_of_mem_bodies (valid.named.mem_allProductions.1 listed)
  bodies := valid.bodiesKnown

/-- The occurrence of a non-terminal in a production, between `front` and `rest`. -/
structure Occurs (g : Grammar) (head name : Symbol) (rest : List Symbol) : Prop where
  named : name ∈ g.names
  inside : ∃ front, (head, front ++ name :: rest) ∈ g.allProductions

/-- What an occurrence asks for is allowed, if what follows the head is. -/
def FollowAllowed (g : Grammar) (Q : Symbol → Symbol → Prop) : Prop :=
  ∀ head name rest, g.Occurs head name rest →
    (∀ t, t ≠ epsilon → g.Begins t rest → Q name t) ∧
    (g.Begins epsilon rest → ∀ t, Q head t → Q name t)

/-- What holds between passes over the FOLLOW sets of `g`: the FIRST sets stay, every mark in a
FOLLOW set is allowed by `Q`, and the end mark follows the start symbol if that is a non-terminal. -/
structure FollowState (g : Grammar) (Q : Symbol → Symbol → Prop) (h : Grammar) : Prop extends
    g.SameRules h where
  flag : h.firstFollowValid = g.firstFollowValid
  first : ∀ name, h.storedFirst name = g.storedFirst name
  nullable : ∀ name, h.storedNullable name = g.storedNullable name
  marked : g.start ∈ g.names → endMark ∈ h.storedFollow g.start
  allowed : ∀ name, ∀ t ∈ h.storedFollow name, Q name t

theorem FollowState.begins_iff (state : g.FollowState Q h) {u : List Symbol} :
    h.Begins t u ↔ g.Begins t u := begins_congr state.names state.first

theorem FollowState.extend (state : g.FollowState Q h) (named : name ∈ g.names)
    {marks : OrderedSet Symbol} (allowed : ∀ t ∈ marks, Q name t) :
    g.FollowState Q (h.extendFollow name marks) := by
  have named' : name ∈ h.names := by rwa [state.names]
  exact
    { toSameRules := state.toSameRules.trans (sameRules_extendFollow h name marks)
      flag := state.flag
      first := fun other => (storedFirst_extendFollow h name marks other).trans (state.first other)
      nullable := fun other =>
        (storedNullable_extendFollow h name marks other).trans (state.nullable other)
      marked := fun start => followGrows_extendFollow named' marks _ _ (state.marked start)
      allowed := fun other t inside => by
        rcases (mem_storedFollow_extendFollow named').1 inside with old | ⟨rfl, gained⟩
        · exact state.allowed other t old
        · exact allowed t gained }

theorem FollowState.exists_followBefore (state : g.FollowState Q h) {rest : List Symbol}
    (known : g.Known rest) {head : Symbol} (headed : head ∈ g.names) (name : Symbol) :
    ∃ marks, h.followBefore head name rest = .ok marks ∧ ∀ t, t ∈ marks ↔
      t ≠ epsilon ∧ g.Begins t rest ∨
        g.Begins epsilon rest ∧ name ≠ head ∧ t ∈ h.storedFollow head := by
  have known' : h.Known rest := by
    intro s within
    rw [state.allSymbols]
    exact known s within
  obtain ⟨first, done⟩ := exists_firstOf known'
  have mem (t : Symbol) : t ∈ first ↔ g.Begins t rest := (mem_firstOf done).trans state.begins_iff
  have above : h.headFollow head = .ok (h.storedFollow head) := by
    obtain ⟨entry, held⟩ := exists_entry (state.names ▸ headed)
    rw [headFollow, storedFollow, held]
  rw [followBefore, done, above]
  by_cases passes : epsilon ∈ first ∧ name ≠ head
  · refine ⟨first.erase epsilon ∪ h.storedFollow head, if_pos passes, fun t => ?_⟩
    have empty := (mem epsilon).1 passes.1
    simp only [OrderedSet.mem_union, OrderedSet.mem_erase, mem, empty, true_and, passes.2, ne_eq,
      not_false_eq_true, and_comm]
  · refine ⟨first.erase epsilon, if_neg passes, fun t => ?_⟩
    rw [mem] at passes
    rw [OrderedSet.mem_erase, mem]
    constructor
    · intro found
      rcases found with ⟨begins, mark⟩
      exact .inl ⟨mark, begins⟩
    · intro found
      rcases found with ⟨mark, begins⟩ | ⟨empty, other, -⟩
      · exact ⟨begins, mark⟩
      · exact absurd ⟨empty, other⟩ passes

/-- The occurrences in `b` find in `h'` what they ask for, the head being followed as in `h`. -/
def Answers (g : Grammar) (head : Symbol) (b : List Symbol) (h h' : Grammar) : Prop :=
  ∀ front name rest, b = front ++ name :: rest → name ∈ g.names →
    (∀ t, t ≠ epsilon → g.Begins t rest → t ∈ h'.storedFollow name) ∧
    (g.Begins epsilon rest → ∀ t ∈ h.storedFollow head, t ∈ h'.storedFollow name)

theorem Answers.mono {head : Symbol} {b : List Symbol} {k k' : Grammar}
    (answers : g.Answers head b h h') (less : k.FollowGrows h) (more : h'.FollowGrows k') :
    g.Answers head b k k' := by
  intro front name rest split named
  obtain ⟨terminals, ends⟩ := answers front name rest split named
  refine ⟨fun t mark begins => more name t (terminals t mark begins), ?_⟩
  intro empty t inside
  exact more name t (ends empty t (less head t inside))

theorem answers_cons {head s : Symbol} {rest : List Symbol}
    (first : s ∈ g.names → (∀ t, t ≠ epsilon → g.Begins t rest → t ∈ h'.storedFollow s) ∧
      (g.Begins epsilon rest → ∀ t ∈ h.storedFollow head, t ∈ h'.storedFollow s))
    (later : g.Answers head rest h h') : g.Answers head (s :: rest) h h' := by
  intro front name back split named
  cases front with
  | nil =>
      obtain ⟨rfl, rfl⟩ := List.cons.inj split
      exact first named
  | cons _ front =>
      obtain ⟨-, split⟩ := List.cons.inj split
      exact later front name back split named

theorem FollowState.occurrence (known : g.ProductionsKnown) (allowed : g.FollowAllowed Q)
    {head s : Symbol} {rest : List Symbol} (occurs : g.Occurs head s rest)
    (state : g.FollowState Q h) :
    ∃ marks, h.followBefore head s rest = .ok marks ∧
      g.FollowState Q (h.extendFollow s marks) ∧ h.FollowGrows (h.extendFollow s marks) ∧
      (∀ t, t ≠ epsilon → g.Begins t rest → t ∈ (h.extendFollow s marks).storedFollow s) ∧
      (g.Begins epsilon rest →
        ∀ t ∈ h.storedFollow head, t ∈ (h.extendFollow s marks).storedFollow s) := by
  obtain ⟨terminals, ends⟩ := allowed head s rest occurs
  obtain ⟨named, front, inside⟩ := occurs
  have named' : s ∈ h.names := by rwa [state.names]
  have knownRest : g.Known rest := fun x among =>
    known.of_mem inside x (List.mem_append_right front (List.mem_cons_of_mem s among))
  obtain ⟨marks, made, mem⟩ := state.exists_followBefore knownRest (known.heads head _ inside) s
  have grows := followGrows_extendFollow named' marks
  have gets (t : Symbol) (among : t ∈ marks) : t ∈ (h.extendFollow s marks).storedFollow s :=
    (mem_storedFollow_extendFollow named').2 (.inr ⟨rfl, among⟩)
  refine ⟨marks, made, state.extend named ?_, grows, ?_, ?_⟩
  · intro t among
    rcases (mem t).1 among with ⟨mark, begins⟩ | ⟨empty, -, follows⟩
    · exact terminals t mark begins
    · exact ends empty t (state.allowed head t follows)
  · intro t mark begins
    exact gets t ((mem t).2 (.inl ⟨mark, begins⟩))
  · intro empty t follows
    by_cases same : s = head
    · subst same
      exact grows s t follows
    · exact gets t ((mem t).2 (.inr ⟨empty, same, follows⟩))

theorem FollowState.body (known : g.ProductionsKnown) (allowed : g.FollowAllowed Q) {head : Symbol}
    {front rest : List Symbol} (inside : (head, front ++ rest) ∈ g.allProductions)
    (state : g.FollowState Q h) :
    ∃ h', followBody head rest h = .ok h' ∧ g.FollowState Q h' ∧ h.FollowGrows h' ∧
      g.Answers head rest h h' := by
  induction rest generalizing front h with
  | nil =>
      refine ⟨h, rfl, state, .refl h, ?_⟩
      intro before name after split
      simp at split
  | cons s rest ih =>
      have within : (head, (front ++ [s]) ++ rest) ∈ g.allProductions := by simpa using inside
      by_cases named : s ∈ g.names
      · have marked : h.isNonTerminal s = true := by rwa [isNonTerminal_iff, state.names]
        obtain ⟨marks, made, extended, grows, terminals, ends⟩ :=
          state.occurrence known allowed ⟨named, front, inside⟩
        obtain ⟨h', done, state', up, answers⟩ := ih within extended
        refine ⟨h', ?_, state', grows.trans up, ?_⟩
        · rw [followBody, if_pos marked, made]
          exact done
        · apply answers_cons _ (answers.mono grows (.refl h'))
          intro _
          refine ⟨fun t mark begins => up s t (terminals t mark begins), ?_⟩
          intro empty t follows
          exact up s t (ends empty t follows)
      · have unmarked : ¬ h.isNonTerminal s = true := by rwa [isNonTerminal_iff, state.names]
        obtain ⟨h', done, state', up, answers⟩ := ih within state
        refine ⟨h', ?_, state', up, answers_cons (fun known => absurd known named) answers⟩
        rw [followBody, if_neg unmarked]
        exact done

theorem FollowState.pass (known : g.ProductionsKnown) (allowed : g.FollowAllowed Q)
    (state : g.FollowState Q h) :
    ∃ h', h.followPass = .ok h' ∧ g.FollowState Q h' ∧ h.FollowGrows h' ∧
      ∀ head b, (head, b) ∈ g.allProductions → g.Answers head b h h' := by
  have step : ∀ production ∈ h.allProductions, ∀ a, g.FollowState Q a → h.FollowGrows a →
      ∃ next, followBody production.1 production.2 a = .ok next ∧ g.FollowState Q next ∧
        a.FollowGrows next ∧ g.Answers production.1 production.2 h next := by
    rintro ⟨head, b⟩ listed a inv above
    rw [state.allProductions] at listed
    have whole : (head, [] ++ b) ∈ g.allProductions := listed
    obtain ⟨next, done, inv', up, answers⟩ := inv.body known allowed whole
    exact ⟨next, done, inv', up, answers.mono above (.refl next)⟩
  obtain ⟨h', done, state', grows, answers⟩ := foldlM_spec
    (Q := fun (production : Symbol × Body) next => g.Answers production.1 production.2 h next)
    FollowGrows.refl FollowGrows.trans (fun up answers => Answers.mono answers (.refl h) up) step
    state (.refl h)
  refine ⟨h', done, state', grows, fun head b listed => ?_⟩
  rw [← state.allProductions] at listed
  exact answers (head, b) listed

theorem FollowState.ext (left : g.FollowState Q h) (right : g.FollowState Q h')
    (same : ∀ name, h'.storedFollow name = h.storedFollow name) : h' = h := by
  refine ext_stored (left.toSameRules.symm.trans right.toSameRules) ?_ ?_ same ?_
  · rw [right.flag, left.flag]
  · intro name
    rw [right.first, left.first]
  · intro name
    rw [right.nullable, left.nullable]

/-- The number of stored FOLLOW marks. -/
def followSize (g : Grammar) : Nat := OrderedSet.totalSize g.names g.storedFollow

theorem FollowState.followSize_lt (left : g.FollowState Q h) (right : g.FollowState Q h')
    (grows : h.FollowGrows h') (other : h' ≠ h) : h.followSize < h'.followSize := by
  rw [followSize, followSize, left.names, right.names]
  apply OrderedSet.totalSize_lt_of_ne grows
  · intro name unnamed
    apply storedFollow_of_not_mem
    rwa [right.names]
  · intro same
    exact other (left.ext right (congrFun same))

/-- The marks that may stand in a FOLLOW set. -/
def followMarks (g : Grammar) : List Symbol := endMark :: g.terminals.toList

theorem FollowState.exists_settles (known : g.ProductionsKnown) (allowed : g.FollowAllowed Q)
    (limited : ∀ name t, Q name t → t ∈ g.followMarks) (state : g.FollowState Q h) :
    ∃ n r, Settles followPass n h r ∧ n ≤ g.passBound ∧ g.FollowState Q r := by
  have total : ∀ s, g.FollowState Q s → ∃ next, s.followPass = .ok next ∧ g.FollowState Q next ∧
      (next ≠ s → s.followSize < next.followSize) := by
    intro s inv
    obtain ⟨next, done, inv', grows, -⟩ := inv.pass known allowed
    exact ⟨next, done, inv', inv.followSize_lt inv' grows⟩
  have small : ∀ s, g.FollowState Q s → s.followSize ≤ g.names.length * g.followMarks.length := by
    intro s inv
    rw [followSize, inv.names]
    exact OrderedSet.totalSize_le fun name _ t inside => limited name t (inv.allowed name t inside)
  obtain ⟨n, r, settles, few, inv⟩ := Predictive.exists_settles total small state
  have marks : g.followMarks.length = g.terminals.size + 1 := rfl
  refine ⟨n, r, settles, ?_, inv⟩
  rw [passBound, ← marks]
  omega

/-- Repeated passes come to sets that the productions ask nothing more for. -/
theorem computeFollow_spec (known : g.ProductionsKnown) (allowed : g.FollowAllowed Q)
    (limited : ∀ name t, Q name t → t ∈ g.followMarks)
    (state : g.FollowState Q (g.extendFollow g.start {endMark})) :
    ∃ r, g.computeFollow = .ok r ∧ g.FollowState Q r ∧
      ∀ head b, (head, b) ∈ g.allProductions → g.Answers head b r r := by
  obtain ⟨n, r, settles, few, inv⟩ := state.exists_settles known allowed limited
  refine ⟨r, settles.untilStable_eq few, inv, fun head b listed => ?_⟩
  obtain ⟨r', passed, -, -, all⟩ := inv.pass known allowed
  obtain rfl := Except.ok.inj (settles.step_eq.symm.trans passed)
  exact all head b listed

end Grammar

end Predictive
