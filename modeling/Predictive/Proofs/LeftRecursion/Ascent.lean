import Predictive.Proofs.LeftRecursion.Visit

set_option autoImplicit false

namespace Predictive

namespace Grammar

variable {g h : Grammar} {head : Symbol} {before : List Symbol} {allowed : Symbol → Prop} {b : Body}

/-- No production of the grammar is empty. -/
def EpsilonFree (g : Grammar) : Prop := ∀ name, ∀ b ∈ g.bodies name, b ≠ [epsilon]

/-- The body begins with a terminal or with an allowed non-terminal. -/
def LedBy (g : Grammar) (allowed : Symbol → Prop) (b : Body) : Prop :=
  ∃ s rest, b = s :: rest ∧ (s ∈ g.terminals ∨ s ∈ g.names ∧ allowed s)

theorem ledBy_cons_iff {s : Symbol} {rest : Body} :
    g.LedBy allowed (s :: rest) ↔ s ∈ g.terminals ∨ s ∈ g.names ∧ allowed s := by
  constructor
  · intro led
    obtain ⟨_, _, same, kind⟩ := led
    obtain ⟨rfl, rfl⟩ := List.cons.inj same
    exact kind
  · intro kind
    exact ⟨s, rest, rfl, kind⟩

theorem LedBy.imp {allowed' : Symbol → Prop} (led : g.LedBy allowed b)
    (weaker : ∀ s ∈ g.names, ∀ rest, b = s :: rest → allowed s → allowed' s) :
    g.LedBy allowed' b := by
  obtain ⟨s, rest, rfl, kind⟩ := led
  rw [ledBy_cons_iff]
  exact kind.imp_right fun named => ⟨named.1, weaker s named.1 rest rfl named.2⟩

theorem LedBy.join (valid : g.WellFormed) (led : g.LedBy allowed b) (back : Body) :
    g.LedBy allowed (Body.join b back) := by
  obtain ⟨s, rest, rfl, kind⟩ := led
  have known : s ∈ g.allSymbols := mem_allSymbols.2 (kind.symm.imp_left And.left)
  rwa [Body.join_cons (valid.ne_epsilon_of_mem known), ledBy_cons_iff]

theorem EpsilonFree.symbols_eq (free : g.EpsilonFree) (valid : g.WellFormed)
    (inside : b ∈ g.bodies head) : b ≠ [] ∧ Body.symbols b = b := by
  obtain ⟨some, without⟩ := (valid.fits head b inside).1.resolve_left (free head b inside)
  exact ⟨some, Body.symbols_of_not_mem without⟩

theorem EpsilonFree.ledBy (free : g.EpsilonFree) (valid : g.WellFormed)
    (inside : b ∈ g.bodies head) : g.LedBy (fun _ => True) b := by
  obtain ⟨some, same⟩ := free.symbols_eq valid inside
  obtain ⟨s, rest, rfl⟩ := List.exists_cons_of_ne_nil some
  have known : s ∈ g.allSymbols := by
    apply (valid.fits head _ inside).2 s
    rw [same]
    exact List.mem_cons_self
  rw [ledBy_cons_iff]
  exact (mem_allSymbols.1 known).symm.imp_right fun named => ⟨named, trivial⟩

/-- Expanding the visited non-terminals in their order leaves none of them in front: what an
expansion puts in front comes later than all that have been expanded. -/
theorem Turn.ledBy_expandVisited (turn : g.Turn h before head) (valid : g.WellFormed)
    (own : ∀ b ∈ h.bodies head, g.LedBy (fun _ => True) b)
    (above : ∀ earlier ∈ before, ∀ b ∈ h.bodies earlier, g.LedBy (earlier < ·) b) :
    ∀ b ∈ (h.expandVisited before head).bodies head, g.LedBy (fun s => s = head ∨ head < s) b := by
  have ordered := turn.increasing
  have unvisited : ∀ b ∈ (h.expandVisited before head).bodies head, g.LedBy (· ∉ before) b := by
    apply mem_bodies_expandVisited (P := fun done b => g.LedBy (· ∉ done) b) turn.known turn.apart
    · intro b inside
      exact (own b inside).imp fun _ _ _ _ _ => List.not_mem_nil
    · intro done earlier b _ led kept
      refine led.imp fun s _ rest split fresh => ?_
      subst split
      have other : s ≠ earlier := by
        rintro rfl
        exact kept ⟨rest, rfl⟩
      simp [fresh, other]
    · intro done earlier rest begins _ p inside
      have among : earlier ∈ before := begins.subset (List.mem_append_right done List.mem_cons_self)
      have sorted := ordered.1.sublist begins.sublist
      rw [List.pairwise_append] at sorted
      refine ((above earlier among p inside).imp fun s _ _ _ later => ?_).join valid rest
      rw [List.mem_append, List.mem_singleton]
      rintro (past | rfl)
      · have past := sorted.2.2 s past earlier List.mem_cons_self
        exact String.lt_irrefl s (String.lt_trans past later)
      · exact String.lt_irrefl s later
  intro b inside
  exact (unvisited b inside).imp fun s named _ _ => ordered.2.2 s named

theorem not_derives_of_forall_begins (valid : g.WellFormed) (known : head ∈ g.names)
    (all : ∀ b ∈ g.bodies head, ∃ rest, b = head :: rest) {w : List Symbol}
    (terminal : g.TerminalString w) : ¬ g.Derives [head] w := by
  intro derived
  -- under this reading a body that begins with `head` stands for nothing at all
  have meaning : g.Interprets fun s _ => s ≠ head :=
    { self := fun s inside same => by
        subst same
        exact valid.disjoint s known inside
      body := fun name b inside v _ read same => by
        subst same
        obtain ⟨rest, rfl⟩ := all b inside
        rw [symbols_cons (valid.ne_epsilon known), reads_cons] at read
        obtain ⟨_, _, _, apart, _⟩ := read
        exact apart rfl }
  exact reads_singleton.1 (meaning.reads derived terminal) rfl

theorem ledBy_removeImmediate (valid : g.WellFormed) (valid' : h.WellFormed)
    (known : head ∈ h.names) (productive : ∃ w, h.TerminalString w ∧ h.Derives [head] w)
    (led : ∀ b ∈ h.bodies head, g.LedBy (fun s => s = head ∨ head < s) b) :
    ∀ b ∈ (h.removeImmediate head).bodies head, g.LedBy (head < ·) b := by
  have direct : ∀ b ∈ h.directBodies head, g.LedBy (head < ·) b := by
    intro b inside
    obtain ⟨old, apart⟩ := mem_directBodies.1 inside
    refine (led b old).imp fun s _ rest split order => ?_
    refine order.resolve_left fun same => ?_
    subst same
    exact apart ⟨rest, split⟩
  rcases removeImmediate_cases valid' known with ⟨all, -⟩ | trims | ⟨fresh, -, -, loops⟩
  · obtain ⟨w, terminal, derived⟩ := productive
    exact absurd derived (not_derives_of_forall_begins valid' known all terminal)
  · intro b inside
    exact direct b ((trims.direct b).1 inside)
  · intro b inside
    obtain ⟨c, among, rfl⟩ := (loops.direct b).1 inside
    exact (direct c among).join valid [fresh]

/-- In the end the bodies of every original non-terminal begin with a terminal or with an original
non-terminal that comes later. -/
theorem ledBy_eliminateLeftRecursion (valid : g.WellFormed) (free : g.EpsilonFree)
    (productive : g.Productive) :
    ∀ name ∈ g.names, ∀ b ∈ g.eliminateLeftRecursion.bodies name, g.LedBy (name < ·) b := by
  have run := eliminateLeftRecursion_induction (g := g)
    (I := fun before h => (∀ name ∈ before, ∀ b ∈ h.bodies name, g.LedBy (name < ·) b) ∧
      ∀ name ∈ g.names, name ∉ before → h.bodies name = g.bodies name)
    valid ⟨fun name among => absurd among List.not_mem_nil, fun _ _ _ => rfl⟩ ?step
  case step =>
    intro before head h turn inv
    obtain ⟨above, untouched⟩ := inv
    have expanded := turn.preserves_expandVisited
    have own : ∀ b ∈ h.bodies head, g.LedBy (fun _ => True) b := by
      rw [untouched head turn.original turn.apart]
      intro b inside
      exact free.ledBy valid inside
    constructor
    · intro name among
      by_cases same : name = head
      · subst same
        refine ledBy_removeImmediate valid expanded.wellFormed (expanded.names name turn.known) ?_
          (turn.ledBy_expandVisited valid own above)
        obtain ⟨w, terminal, derived⟩ := productive name turn.original
        have whole := turn.preserved.trans expanded
        exact ⟨w, whole.terminalString_iff.2 terminal,
          (whole.language name turn.original w terminal).1 derived⟩
      · have earlier : name ∈ before := by simpa [same] using among
        have old := turn.preserved.names name (turn.original_of_mem earlier)
        rw [turn.bodies_visit_of_ne old same]
        exact above name earlier
    · intro name named later
      rw [List.mem_append, List.mem_singleton, not_or] at later
      rw [turn.bodies_visit_of_ne (turn.preserved.names name named) later.2]
      exact untouched name named later.1
  intro name named
  exact run.2.1 name named

end Grammar

end Predictive
