import Predictive.Proofs.LeftRecursion.Visit
import Predictive.Proofs.Prediction.Unfolding

set_option autoImplicit false

namespace Predictive

namespace Grammar

variable {g g' : Grammar} {head earlier fresh name t : Symbol} {b c tail : Body}
  {u front rest : List Symbol}

theorem unfolded_expandLeading (valid : g.WellFormed) (known : head ∈ g.names)
    (visited : earlier ∈ g.names) :
    g.Unfolded (g.expandLeading head earlier) head earlier (g.bodiesStarting head earlier) := by
  simp only [expandLeading]
  split
  case isTrue none =>
    rw [List.isEmpty_iff.1 none]
    exact ⟨rfl, fun other b inside => .inl ⟨inside, fun _ => List.not_mem_nil⟩⟩
  case isFalse =>
    exact unfolded_setBodies known (fun c leading => (mem_bodiesStarting.1 leading).1)
      fun c leading => unfolds_expandFront valid visited leading

theorem exists_symbols_of_mem_bodiesStarting (clean : earlier ≠ epsilon)
    (leading : c ∈ g.bodiesStarting head earlier) : ∃ rest, Body.symbols c = earlier :: rest := by
  obtain ⟨-, rest, rfl⟩ := mem_bodiesStarting.1 leading
  exact ⟨_, symbols_cons clean rest⟩

theorem Separated.expandLeading (separated : g.Separated) (valid : g.WellFormed)
    (known : head ∈ g.names) (visited : earlier ∈ g.names) (apart : earlier ≠ head) :
    (g.expandLeading head earlier).Separated := by
  have clean := valid.ne_epsilon visited
  refine (unfolded_expandLeading valid known visited).separated valid
    (preserves_expandLeading valid known visited apart) separated ?_
  intro b inside spared c leading before after rest split first same
  obtain ⟨behind, whole⟩ := exists_symbols_of_mem_bodiesStarting clean leading
  rw [whole] at split
  cases before with
  | cons s before =>
      obtain ⟨rfl, -⟩ := List.cons.inj split
      exact first List.mem_cons_self
  | nil =>
      have begins := ((valid.fits head b inside).begins_iff clean).2 ⟨rest, same⟩
      exact spared (mem_bodiesStarting.2 ⟨inside, begins⟩)

theorem Trims.follows (trims : g.Trims g' head) (valid : g.WellFormed) (preserved : g.Preserves g')
    (productive : g.Productive) (behind : g'.Follows name t) : g.Follows name t := by
  have productive' := preserved.productive_of_names productive trims.names
  refine behind.of_closed ?_ fun head b front name rest t inside split called => ?_
  · rw [preserved.start]
    exact .start
  · exact preserved.follows_of_called valid productive productive' (trims.mem_bodies inside) split
      called

theorem Separated.of_trims (separated : g.Separated) (valid : g.WellFormed)
    (preserved : g.Preserves g') (trims : g.Trims g' head) : g'.Separated := by
  have productive := preserved.productive_of_names separated.productive trims.names
  refine ⟨productive, fun name b inside b' inside' => ?_⟩
  have old := trims.mem_bodies inside
  have old' := trims.mem_bodies inside'
  exact preserved.apart valid separated.productive productive
    (fun t => trims.follows valid preserved separated.productive)
    (valid.fits name b old).2 (valid.fits name b' old').2 (separated.apart name b old b' old')

section Idle

/-- Neither the direct bodies of the non-terminal nor its tails stand for anything, and nothing
follows it. -/
structure Idle (g : Grammar) (head : Symbol) : Prop where
  direct : ∀ c ∈ g.directBodies head, ∀ t, ¬ g.Opens (Body.symbols c) t
  tails : ∀ tail ∈ g.recursiveTails head, ∀ t, ¬ g.Opens (Body.symbols tail) t
  follows : ∀ t, ¬ g.Follows head t

theorem Separated.disjoint_direct (separated : g.Separated) (valid : g.WellFormed)
    (known : head ∈ g.names) (direct : c ∈ g.directBodies head)
    (within : tail ∈ g.recursiveTails head) :
    g.Disjoint head (Body.symbols c) (head :: Body.symbols tail) := by
  have clean := valid.ne_epsilon known
  obtain ⟨old, other⟩ := mem_directBodies.1 direct
  have apart := separated.apart head c old _ (mem_recursiveTails.1 within).2
  rw [symbols_cons clean] at apart
  refine apart [] _ _ rfl rfl fun same => ?_
  obtain ⟨rest, split⟩ := List.head?_eq_some_iff.1 same
  exact other (((valid.fits head c old).begins_iff clean).2 ⟨rest, split⟩)

/-- In a separated grammar a non-terminal with direct and recursive bodies is idle: what opens a
direct body opens the recursive ones through the head in front, and what opens a tail follows the
head, which may be empty. -/
theorem Separated.idle (separated : g.Separated) (valid : g.WellFormed) (known : head ∈ g.names)
    (direct : c ∈ g.directBodies head) (within : tail ∈ g.recursiveTails head) : g.Idle head := by
  have clean := valid.ne_epsilon known
  have closed : ∀ c ∈ g.directBodies head, ∀ t, ¬ g.Opens (Body.symbols c) t := by
    intro c direct t opens
    have opens' := opens_of_mem_bodies (mem_directBodies.1 direct).1 opens
    exact separated.disjoint_direct valid known direct within t
      ⟨.inl opens, .inl (opens_cons_iff.2 (.inl opens'))⟩
  have old := (mem_directBodies.1 direct).1
  have nothing : g.Derives (Body.symbols c) [] :=
    separated.productive.derives_nil_of_not_opens (valid.fits head c old).2 (closed c direct)
  have empty : g.Derives [head] [] := derives_of_mem_bodies old nothing
  have shut : ∀ tail ∈ g.recursiveTails head, ∀ t, ¬ g.Opens (Body.symbols tail) t := by
    intro tail within t opens
    have split : Body.symbols (head :: tail) = [] ++ head :: Body.symbols tail :=
      symbols_cons clean tail
    have behind : g.Follows head t := .opened (mem_recursiveTails.1 within).2 split opens
    exact separated.disjoint_direct valid known direct within t
      ⟨.inr ⟨nothing, behind⟩, .inl (opens_cons_iff.2 (.inr ⟨empty, opens⟩))⟩
  refine ⟨closed, shut, fun t behind => ?_⟩
  have parts := (valid.fits head _ (mem_recursiveTails.1 within).2).2
  rw [symbols_cons clean, List.forall_mem_cons] at parts
  have passing := separated.productive.derives_nil_of_not_opens parts.2 (shut tail within)
  exact separated.disjoint_direct valid known direct within t
    ⟨.inr ⟨nothing, behind⟩, .inr ⟨derives_cons_nil_iff.2 ⟨empty, passing⟩, behind⟩⟩

end Idle

namespace Loops

variable (loops : g.Loops g' head fresh) (valid : g.WellFormed) (preserved : g.Preserves g')
  (separated : g.Separated) (idle : g.Idle head)

include loops

theorem productive (preserved : g.Preserves g') (productive : g.Productive) : g'.Productive := by
  apply preserved.productive_of_new productive
  intro name named new
  obtain rfl := ((loops.names name).1 named).resolve_right new
  exact ⟨[], terminalString_nil, loops.derives_nil⟩

theorem tail_known (valid : g.WellFormed) (within : tail ∈ g.recursiveTails head) :
    ∀ s ∈ Body.symbols tail, s ∈ g.allSymbols := by
  have parts := (valid.fits head _ (mem_recursiveTails.1 within).2).2
  rw [symbols_cons (valid.ne_epsilon loops.known), List.forall_mem_cons] at parts
  exact parts.2

include valid preserved idle

/-- As no tail stands for anything, the fresh non-terminal may be read as standing for nothing. -/
theorem interprets_idle : g'.Interprets fun s v => g'.Derives [s] v ∧ (s = fresh → v = []) where
  self s inside := by
    refine ⟨Derives.refl _ [s], ?_⟩
    rintro rfl
    exact absurd (mem_allSymbols.2 (.inr (loops.terminals ▸ inside))) loops.unused
  body name b inside v inner read := by
    have derived := reads_derives_iff.1 (read.imp fun _ _ _ both => both.1)
    refine ⟨derives_of_mem_bodies inside derived, ?_⟩
    rintro rfl
    rcases (loops.loop b).1 inside with rfl | ⟨tail, within, rfl⟩
    · simpa [Body.symbols] using read
    · rw [loops.symbols_join_fresh, reads_append] at read
      obtain ⟨first, last, rfl, left, right⟩ := read
      obtain rfl := (reads_singleton.1 right).2 rfl
      rw [List.append_nil] at inner ⊢
      have first' := reads_derives_iff.1 (left.imp fun _ _ _ both => both.1)
      rw [preserved.terminalString_iff] at inner
      rw [← preserved.derives_iff valid (loops.tail_known valid within) inner] at first'
      cases first with
      | nil => rfl
      | cons s first =>
          exact absurd ⟨inner s List.mem_cons_self, first, first'⟩ (idle.tails tail within s)

include separated

theorem not_opens_fresh : ¬ g'.Opens [fresh] t := by
  intro opens
  have known : ∀ s ∈ [fresh], s ∈ g'.allSymbols := by
    rw [List.forall_mem_singleton]
    exact loops.mem_allSymbols_iff.2 (.inl rfl)
  obtain ⟨w, plain, derived⟩ := (loops.productive preserved separated.productive).exists_derives_cons
    known preserved.wellFormed opens
  have read := (loops.interprets_idle valid preserved idle).reads derived plain
  have empty := (reads_singleton.1 read).2 rfl
  contradiction

theorem opened_before (known : ∀ s ∈ u, s ∈ g.allSymbols)
    (split : u ++ [fresh] = front ++ name :: rest) (opens : g'.Opens rest t) :
    ∃ mid, u = front ++ name :: mid ∧ g.Opens mid t := by
  rcases occurrence_append_singleton split with ⟨mid, rfl, rfl⟩ | ⟨-, -, rfl⟩
  · refine ⟨mid, rfl, ?_⟩
    rw [List.forall_mem_append, List.forall_mem_cons] at known
    rw [preserved.opens_iff valid separated.productive
      (loops.productive preserved separated.productive) known.2.2]
    rw [opens_append_iff] at opens
    exact opens.resolve_right fun both =>
      loops.not_opens_fresh valid preserved separated idle both.2
  · exact absurd opens not_opens_nil

/-- Nothing follows the fresh non-terminal, and what follows another followed it before. -/
theorem follows (behind : g'.Follows name t) : name ≠ fresh ∧ g.Follows name t := by
  have productive' := loops.productive preserved separated.productive
  have old : ∀ s ∈ g.allSymbols, s ≠ fresh := fun _ => loops.ne_fresh_of_mem
  refine behind.of_closed (Q := fun name t => name ≠ fresh ∧ g.Follows name t) ?_
    fun head' b front name rest t inside split called => ?_
  · rw [loops.start]
    exact ⟨old g.start (mem_allSymbols.2 (.inl valid.start)), .start⟩
  · -- neither the head nor the fresh non-terminal has anything to pass on
    have opened {u : List Symbol} {c : Body} {more : List Symbol} (inside : c ∈ g.bodies head)
        (whole : Body.symbols c = more ++ u) (split : u ++ [fresh] = front ++ name :: rest)
        (opens : g'.Opens rest t) : name ≠ fresh ∧ g.Follows name t := by
      have known := (valid.fits head c inside).2
      rw [whole, List.forall_mem_append] at known
      obtain ⟨mid, rfl, opens'⟩ :=
        loops.opened_before valid preserved separated idle known.2 split opens
      rw [List.forall_mem_append, List.forall_mem_cons] at known
      rw [← List.append_assoc] at whole
      exact ⟨old name known.2.2.1, .opened inside whole opens'⟩
    by_cases isFresh : head' = fresh
    · subst isFresh
      have opens := called.resolve_right fun both => both.2.1 rfl
      rcases (loops.loop b).1 inside with rfl | ⟨tail, within, rfl⟩
      · simp [Body.symbols] at split
      · rw [loops.symbols_join_fresh] at split
        have whole : Body.symbols (head :: tail) = [head] ++ Body.symbols tail :=
          symbols_cons (valid.ne_epsilon loops.known) tail
        exact opened (mem_recursiveTails.1 within).2 whole split opens
    · by_cases isHead : head' = head
      · subst isHead
        have opens := called.resolve_right fun both => idle.follows t both.2.2
        obtain ⟨c, direct, rfl⟩ := (loops.direct b).1 inside
        rw [loops.symbols_join_fresh] at split
        exact opened (mem_directBodies.1 direct).1 (List.nil_append _).symm split opens
      · rw [loops.bodies head' isHead isFresh] at inside
        exact ⟨old name (valid.known_around inside split).1,
          preserved.follows_of_called valid separated.productive productive' inside split
            (called.imp_right (And.imp_right And.right))⟩

theorem not_predicts (inside : b ∈ g'.bodies name) (changed : name = head ∨ name = fresh) :
    ¬ g'.Predicts name (Body.symbols b) t := by
  have productive' := loops.productive preserved separated.productive
  have passes : ¬ g'.Follows name t := by
    intro behind
    obtain ⟨other, before⟩ := loops.follows valid preserved separated idle behind
    rcases changed with rfl | same
    · exact idle.follows t before
    · exact other same
  have closed : ∀ u, (∀ s ∈ u, s ∈ g.allSymbols) → (∀ t, ¬ g.Opens u t) →
      ¬ g'.Opens (u ++ [fresh]) t := by
    intro u known shut opens
    rw [opens_append_iff, ← preserved.opens_iff valid separated.productive productive' known] at opens
    rcases opens with opens | ⟨-, opens⟩
    · exact shut t opens
    · exact loops.not_opens_fresh valid preserved separated idle opens
  rintro (opens | ⟨-, behind⟩)
  · rcases changed with rfl | rfl
    · obtain ⟨c, direct, rfl⟩ := (loops.direct b).1 inside
      rw [loops.symbols_join_fresh] at opens
      exact closed _ (valid.fits name c (mem_directBodies.1 direct).1).2 (idle.direct c direct) opens
    · rcases (loops.loop b).1 inside with rfl | ⟨tail, within, rfl⟩
      · exact not_opens_nil (by simpa [Body.symbols] using opens)
      · rw [loops.symbols_join_fresh] at opens
        exact closed _ (loops.tail_known valid within) (idle.tails tail within) opens
  · exact passes behind

theorem separated_of_idle : g'.Separated := by
  have productive' := loops.productive preserved separated.productive
  refine ⟨productive', fun name b inside b' inside' => ?_⟩
  by_cases changed : name = head ∨ name = fresh
  · apply Disjoint.apart productive'
    · exact fun t both =>
        loops.not_predicts valid preserved separated idle inside changed both.1
    · exact (preserved.wellFormed.fits name b inside).2
  · obtain ⟨isHead, isFresh⟩ := not_or.1 changed
    rw [loops.bodies name isHead isFresh] at inside inside'
    apply preserved.apart valid separated.productive productive'
    · exact fun t behind => (loops.follows valid preserved separated idle behind).2
    · exact (valid.fits name b inside).2
    · exact (valid.fits name b' inside').2
    · exact separated.apart name b inside b' inside'

end Loops

theorem Separated.removeImmediate (separated : g.Separated) (valid : g.WellFormed)
    (known : head ∈ g.names) : (g.removeImmediate head).Separated := by
  have preserved := preserves_removeImmediate valid known
  rcases removeImmediate_cases valid known with ⟨-, same⟩ | trims | ⟨fresh, tail, within, loops⟩
  · rwa [same]
  · exact separated.of_trims valid preserved trims
  · obtain ⟨b, inside⟩ := preserved.wellFormed.inhabited head (preserved.names head known)
    obtain ⟨c, direct, -⟩ := (loops.direct b).1 inside
    have idle := separated.idle valid known direct within
    exact loops.separated_of_idle valid preserved separated idle

theorem Separated.eliminateLeftRecursion (separated : g.Separated) (valid : g.WellFormed) :
    g.eliminateLeftRecursion.Separated := by
  refine (eliminateLeftRecursion_induction (I := fun _ => Separated) valid separated
    fun before head h turn separated => ?_).2
  obtain ⟨expanded, separated⟩ := turn.expandVisited_induction separated
    fun h earlier valid known visited apart separated =>
      separated.expandLeading valid known visited apart
  exact separated.removeImmediate expanded.wellFormed (expanded.names head turn.known)

end Grammar

end Predictive
