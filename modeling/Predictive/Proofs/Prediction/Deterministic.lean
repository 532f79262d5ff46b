import Predictive.Proofs.Factoring.Alternatives
import Predictive.Proofs.Prediction.Factoring
import Predictive.Proofs.Prediction.LeftRecursion
import Predictive.Proofs.Prediction.Verdict

set_option autoImplicit false

namespace Predictive

namespace Grammar

variable {g g' : Grammar} {head earlier fresh name t : Symbol} {b b' : Body}

/-- Where each call for a body of `name` was one for a body of `name'` that it comes from, no two
bodies are called for together, if this holds of those that come from the same one. -/
theorem Deterministic.of_origins (deterministic : g.Deterministic) (name' : Symbol)
    (From : Body → Body → Prop)
    (origin : ∀ b ∈ g'.bodies name, ∀ t, g'.Predicts name (Body.symbols b) t →
      ∃ c ∈ g.bodies name', From b c ∧ g.Predicts name' (Body.symbols c) t)
    (inside : b ∈ g'.bodies name) (inside' : b' ∈ g'.bodies name)
    (single : ∀ c, From b c → From b' c → g'.Disjoint name (Body.symbols b) (Body.symbols b')) :
    g'.Disjoint name (Body.symbols b) (Body.symbols b') := by
  intro t both
  obtain ⟨c, old, comes, called⟩ := origin b inside t both.1
  obtain ⟨c', old', comes', called'⟩ := origin b' inside' t both.2
  by_cases same : c = c'
  · subst same
    exact single c comes comes' t both
  · exact deterministic name' c old c' old' same t ⟨called, called'⟩

theorem Deterministic.of_kept (deterministic : g.Deterministic)
    (kept : ∀ b ∈ g'.bodies name, b ∈ g.bodies name)
    (called : ∀ b ∈ g'.bodies name, ∀ t, g'.Predicts name (Body.symbols b) t →
      g.Predicts name (Body.symbols b) t)
    (inside : b ∈ g'.bodies name) (inside' : b' ∈ g'.bodies name) (other : b ≠ b') :
    g'.Disjoint name (Body.symbols b) (Body.symbols b') :=
  deterministic.of_origins name Eq
    (fun b inside t predicts => ⟨b, kept b inside, rfl, called b inside t predicts⟩) inside inside'
    fun _ same same' => absurd (same.trans same'.symm) other

theorem SameRules.deterministic (same : g.SameRules g') (deterministic : g.Deterministic) :
    g'.Deterministic := by
  intro head b inside b' inside' other
  refine deterministic.of_kept (fun b inside => same.bodies head ▸ inside) (fun b _ t called => ?_)
    inside inside' other
  exact called.imp same.symm.opens (And.imp same.symm.derives same.symm.follows)

section Unfolding

variable {chosen : List Body} (unfolded : g.Unfolded g' head name chosen) (valid : g.WellFormed)
  (preserved : g.Preserves g') (productive : g.Productive)

include unfolded valid preserved productive

theorem Unfolded.predicts {other : Symbol} (inside : b ∈ g'.bodies other)
    (called : g'.Predicts other (Body.symbols b) t) : g.Predicts other (Body.symbols b) t :=
  preserved.predicts valid productive (unfolded.productive preserved productive)
    (fun _ => unfolded.follows valid preserved productive)
    (unfolded.symbols_known preserved inside) called

theorem Unfolded.disjoint_before {other : Symbol} {c p p' : Body} {rest : List Symbol}
    (deterministic : g.Deterministic) (inside : b ∈ g'.bodies other) (inside' : b' ∈ g'.bodies other)
    (differ : b ≠ b') (listed : c ∈ g.bodies other) (split : Body.symbols c = name :: rest)
    (body : p ∈ g.bodies name) (body' : p' ∈ g.bodies name)
    (made : Body.symbols b = Body.symbols p ++ rest)
    (made' : Body.symbols b' = Body.symbols p' ++ rest) :
    g'.Disjoint other (Body.symbols b) (Body.symbols b') := by
  have apart : p ≠ p' := by
    rintro rfl
    exact differ ((preserved.wellFormed.fits other b inside).eq_of_symbols
      (preserved.wellFormed.fits other b' inside') (made.trans made'.symm))
  have behind {t : Symbol} : g.Predicts other rest t → g.Follows name t :=
    follows_of_predicts listed (show Body.symbols c = [] ++ name :: rest from split)
  apply (deterministic name p body p' body' apart).imp
  · intro t called
    have called := unfolded.predicts valid preserved productive inside called
    rw [made] at called
    exact called.of_append behind
  · intro t called
    have called := unfolded.predicts valid preserved productive inside' called
    rw [made'] at called
    exact called.of_append behind

theorem Unfolded.deterministic (deterministic : g.Deterministic)
    (leading : ∀ c ∈ chosen, ∃ rest, Body.symbols c = name :: rest) : g'.Deterministic := by
  intro other b inside b' inside' differ
  refine deterministic.of_origins other
    (fun b c => b = c ∧ (other = head → c ∉ chosen) ∨
      other = head ∧ c ∈ chosen ∧ c ∈ g.bodies other ∧ ∃ rest, ∃ p ∈ g.bodies name,
        Body.symbols c = name :: rest ∧ Body.symbols b = Body.symbols p ++ rest)
    (fun b inside t predicts => ?_) inside inside' fun c comes comes' => ?_
  · have called := unfolded.predicts valid preserved productive inside predicts
    rcases unfolded.origin other b inside with
      ⟨kept, spared⟩ | ⟨rfl, c, among, listed, before, rest, p, body, split, first, made⟩
    · exact ⟨b, kept, .inl ⟨rfl, spared⟩, called⟩
    · obtain rfl : before = [] := by
        obtain ⟨tail, whole⟩ := leading c among
        cases before with
        | nil => rfl
        | cons s before =>
            obtain ⟨rfl, -⟩ := List.cons.inj (whole.symm.trans split)
            exact absurd List.mem_cons_self first
      rw [List.nil_append] at split made
      refine ⟨c, listed, .inr ⟨rfl, among, listed, rest, p, body, split, made⟩, ?_⟩
      rw [made] at called
      rw [split]
      exact called.of_mem_bodies body
  · rcases comes with ⟨rfl, spared⟩ | ⟨same, among, listed, rest, p, body, split, made⟩
    · rcases comes' with ⟨rfl, -⟩ | ⟨same, among, -⟩
      · exact absurd rfl differ
      · exact absurd among (spared same)
    · rcases comes' with ⟨rfl, spared⟩ | ⟨-, -, -, rest', p', body', split', made'⟩
      · exact absurd among (spared same)
      · -- one body, unfolded by two of the non-terminal that it begins with
        obtain ⟨-, rfl⟩ := List.cons.inj (split.symm.trans split')
        exact unfolded.disjoint_before valid preserved productive deterministic inside inside' differ
          listed split body body' made made'

end Unfolding

section Factoring

variable (factors : g.Factors g' head fresh) (valid : g.WellFormed) (begin : g.FactorsByPrefix head)
  (productive : g.Productive) (disjoint : g.Deterministic)

include valid productive disjoint

theorem Deterministic.derives_sharedPrefix (shared : g.sharedPrefix head ≠ []) :
    g.Derives (Body.symbols (g.sharedPrefix head)) [] := by
  obtain ⟨b, among, c, among', other, begins, begins'⟩ := exists_two_begin shared
  obtain ⟨inside, -⟩ := mem_candidates.1 among
  obtain ⟨inside', -⟩ := mem_candidates.1 among'
  have split := symbols_eq_of_begins begins
  have split' := symbols_eq_of_begins begins'
  have known := (valid.fits head b inside).2
  rw [split, List.forall_mem_append] at known
  refine productive.derives_nil_of_not_opens known.1 fun t opens => ?_
  have parted := disjoint head b inside c inside' other t
  rw [split, split', predicts_append_iff, predicts_append_iff] at parted
  exact parted ⟨.inl opens, .inl opens⟩

include factors begin

theorem Factors.disjoint_fresh (inside : b ∈ g'.bodies fresh) (inside' : b' ∈ g'.bodies fresh)
    (other : b ≠ b') : g'.Disjoint fresh (Body.symbols b) (Body.symbols b') := by
  have preserved := factors.preserves valid begin
  have productive' := factors.productive valid begin productive
  refine disjoint.of_origins head
    (fun b c => b = Body.normalize (c.drop (g.sharedPrefix head).length))
    (fun b inside t called => ?_) inside inside'
    fun c same same' => absurd (same.trans same'.symm) other
  obtain ⟨c, among, made⟩ := (factors.rest b).1 inside
  have symbols : Body.symbols b = g.behindPrefix head c := by
    rw [made, Body.symbols_normalize]
    rfl
  rw [symbols] at called
  have called' := preserved.predicts valid productive productive'
    (fun _ => factors.follows_fresh valid begin productive)
    (Factors.behindPrefix_known valid begin among) called
  have empty := disjoint.derives_sharedPrefix valid productive factors.shared
  refine ⟨c, mem_bodies_of_factored among, made, ?_⟩
  -- the prefix stands for nothing, so it takes no lookahead from what is behind it
  rw [begin.symbols_eq among]
  exact predicts_append_iff.2 (.inr ⟨empty, called'⟩)

omit disjoint in
theorem Factors.predicts_kept (old : name ≠ fresh) (inside : b ∈ g.bodies name)
    (called : g'.Predicts name (Body.symbols b) t) : g.Predicts name (Body.symbols b) t :=
  (factors.preserves valid begin).predicts valid productive
    (factors.productive valid begin productive)
    (fun _ => factors.follows_old valid begin productive old) (valid.fits name b inside).2 called

theorem Factors.disjoint_head (inside : b ∈ g'.bodies head) (inside' : b' ∈ g'.bodies head)
    (other : b ≠ b') : g'.Disjoint head (Body.symbols b) (Body.symbols b') := by
  refine disjoint.of_origins head
    (fun b c => b = Body.join (g.sharedPrefix head) [fresh] ∧ c ∈ g.factoredBodies head ∨
      b = c ∧ c ∉ g.factoredBodies head)
    (fun b inside t called => ?_) inside inside' fun c comes comes' => ?_
  · rcases (factors.kept b).1 inside with rfl | ⟨old, spared⟩
    · rw [factors.symbols_join_fresh] at called
      obtain ⟨c, among, predicts⟩ := factors.exists_behindPrefix valid begin productive
        (Factors.prefix_known valid begin factors.shared) (called.imp_right
          (And.imp_right (factors.follows_old valid begin productive factors.apart)))
      rw [← begin.symbols_eq among] at predicts
      exact ⟨c, mem_bodies_of_factored among, .inl ⟨rfl, among⟩, predicts⟩
    · have before := factors.predicts_kept valid begin productive factors.apart old called
      exact ⟨b, old, .inr ⟨rfl, spared⟩, before⟩
  · rcases comes with ⟨rfl, among⟩ | ⟨rfl, spared⟩
    · exact absurd (comes'.resolve_right fun both => both.2 among).1.symm other
    · exact absurd (comes'.resolve_left fun both => spared both.2).1.symm other

theorem Factors.deterministic : g'.Deterministic := by
  intro name b inside b' inside' other
  by_cases isFresh : name = fresh
  · subst isFresh
    exact factors.disjoint_fresh valid begin productive disjoint inside inside' other
  by_cases isHead : name = head
  · subst isHead
    exact factors.disjoint_head valid begin productive disjoint inside inside' other
  have same := factors.bodies name isHead isFresh
  refine disjoint.of_kept (fun b inside => same ▸ inside) (fun b inside t called => ?_) inside inside'
    other
  exact factors.predicts_kept valid begin productive isFresh (same ▸ inside) called

end Factoring

theorem Deterministic.factorAll (deterministic : g.Deterministic) (valid : g.WellFormed)
    (productive : g.Productive) (begin : FactorsAllByPrefix g.names g) :
    g.factorAll.Deterministic := by
  refine (foldl_factor_induction (I := fun h => h.Productive ∧ h.Deterministic) valid
    (fun _ named => named) begin ⟨productive, deterministic⟩
    fun h head valid known begin kept => ?_).2.2
  obtain ⟨productive, deterministic⟩ := kept
  unfold factor
  split
  case isTrue => exact ⟨productive, deterministic⟩
  case isFalse shared =>
    have factors := factors_factorInto valid known (by simpa only [List.isEmpty_iff] using shared)
    exact ⟨factors.productive valid begin productive,
      factors.deterministic valid begin productive deterministic⟩

section LeftRecursion

theorem Deterministic.expandLeading (deterministic : g.Deterministic) (valid : g.WellFormed)
    (productive : g.Productive) (known : head ∈ g.names) (visited : earlier ∈ g.names)
    (apart : earlier ≠ head) : (g.expandLeading head earlier).Deterministic :=
  (unfolded_expandLeading valid known visited).deterministic valid
    (preserves_expandLeading valid known visited apart) productive deterministic
    fun _ leading => exists_symbols_of_mem_bodiesStarting (valid.ne_epsilon visited) leading

theorem Loops.deterministic (loops : g.Loops g' head fresh) (valid : g.WellFormed)
    (preserved : g.Preserves g') (separated : g.Separated) (idle : g.Idle head)
    (deterministic : g.Deterministic) : g'.Deterministic := by
  intro name b inside b' inside' other
  by_cases changed : name = head ∨ name = fresh
  · exact fun t both => loops.not_predicts valid preserved separated idle inside changed both.1
  · obtain ⟨isHead, isFresh⟩ := not_or.1 changed
    have same := loops.bodies name isHead isFresh
    refine deterministic.of_kept (fun b inside => same ▸ inside) (fun b inside t called => ?_)
      inside inside' other
    exact preserved.predicts valid separated.productive
      (loops.productive preserved separated.productive)
      (fun t behind => (loops.follows valid preserved separated idle behind).2)
      (valid.fits name b (same ▸ inside)).2 called

theorem Deterministic.removeImmediate (deterministic : g.Deterministic) (valid : g.WellFormed)
    (productive : g.Productive) (known : head ∈ g.names) :
    (g.removeImmediate head).Deterministic := by
  have preserved := preserves_removeImmediate valid known
  rcases removeImmediate_cases valid known with ⟨-, same⟩ | trims | ⟨fresh, tail, within, loops⟩
  · rwa [same]
  · intro name b inside b' inside' other
    refine deterministic.of_kept (fun b => trims.mem_bodies) (fun b inside t called => ?_) inside
      inside' other
    exact preserved.predicts valid productive (preserved.productive_of_names productive trims.names)
      (fun t => trims.follows valid preserved productive)
      (valid.fits name b (trims.mem_bodies inside)).2 called
  · have separated := deterministic.separated valid productive
    obtain ⟨b, inside⟩ := preserved.wellFormed.inhabited head (preserved.names head known)
    obtain ⟨c, direct, -⟩ := (loops.direct b).1 inside
    exact loops.deterministic valid preserved separated (separated.idle valid known direct within)
      deterministic

/-- Removing left recursion keeps a grammar deterministic. -/
theorem Deterministic.eliminateLeftRecursion (deterministic : g.Deterministic)
    (valid : g.WellFormed) (productive : g.Productive) :
    g.eliminateLeftRecursion.Deterministic := by
  have run := eliminateLeftRecursion_induction (g := g)
    (I := fun _ h => h.Separated ∧ h.Deterministic) valid
    ⟨deterministic.separated valid productive, deterministic⟩ ?step
  case step =>
    intro before head h turn kept
    obtain ⟨expanded, separated, deterministic⟩ := turn.expandVisited_induction
      (I := fun h => h.Separated ∧ h.Deterministic) kept
      fun h earlier valid known visited apart kept =>
        ⟨kept.1.expandLeading valid known visited apart,
          kept.2.expandLeading valid kept.1.productive known visited apart⟩
    have known := expanded.names head turn.known
    exact ⟨separated.removeImmediate expanded.wellFormed known,
      deterministic.removeImmediate expanded.wellFormed separated.productive known⟩
  exact run.2.2

end LeftRecursion

/-- Nothing is inlined: no non-terminal has two bodies that mention a colliding group. -/
def InlinesNothing (g : Grammar) : Prop :=
  ∀ group ∈ g.collisions, ∀ head ∈ g.names, (g.bodies head).toList.countP (mentions group) < 2

theorem InlinesNothing.inlineCollisions_eq (nothing : g.InlinesNothing) :
    g.inlineCollisions = g := by
  refine List.foldlRecOn (motive := fun h => h = g) _ _ rfl fun h same group collides => ?_
  subst same
  refine List.foldlRecOn (motive := fun h' => h' = h) _ _ rfl fun h' same head named => ?_
  subst same
  exact if_pos (nothing group (OrderedSet.mem_toList.1 collides) head named)

section Verdict

variable (reachable : g.Reachable) (ll1 : g.isLL1 = .ok true)
  (generates : ∀ name ∈ g.names, ∃ w, g.Generates name w)

include reachable ll1 generates

theorem Reachable.deterministic_eliminateLeftRecursion :
    g.eliminateLeftRecursion.Productive ∧ g.eliminateLeftRecursion.Deterministic := by
  have valid := reachable.wellFormed
  have productive := (productive_iff valid).2 generates
  obtain ⟨verdict, judged, exact⟩ := exists_isLL1 valid reachable.current
  obtain rfl := Except.ok.inj (ll1.symm.trans judged)
  have deterministic := exact.1 rfl
  have separated := (deterministic.separated valid productive).eliminateLeftRecursion valid
  exact ⟨separated.productive, deterministic.eliminateLeftRecursion valid productive⟩

/-- A grammar that is LL(1) stays so when left recursion is removed, if every non-terminal stands for
something. -/
theorem Reachable.isLL1_eliminateLeftRecursion :
    g.eliminateLeftRecursion.isLL1 = .ok true := by
  have reachable' := reachable.eliminateLeftRecursion
  obtain ⟨-, deterministic⟩ := reachable.deterministic_eliminateLeftRecursion ll1 generates
  obtain ⟨verdict, judged, exact⟩ := exists_isLL1 reachable'.wellFormed reachable'.current
  rw [judged, exact.2 deterministic]

/-- The conversion keeps a grammar LL(1) where it inlines nothing and every body that it factors
begins with the prefix. -/
theorem Reachable.isLL1_convert_of_inlinesNothing
    (nothing : g.eliminateLeftRecursion.InlinesNothing)
    (begin : g.eliminateLeftRecursion.LeftFactorsByPrefix) :
    ∃ c, g.convert = .ok c ∧ c.isLL1 = .ok true := by
  obtain ⟨productive, deterministic⟩ :=
    reachable.deterministic_eliminateLeftRecursion ll1 generates
  have valid := reachable.eliminateLeftRecursion.wellFormed
  rw [LeftFactorsByPrefix, nothing.inlineCollisions_eq] at begin
  have factored := deterministic.factorAll valid productive begin
  obtain ⟨c, done, same, valid', current⟩ := exists_convert reachable.wellFormed
  obtain ⟨verdict, judged, exact⟩ := exists_isLL1 valid' current
  rw [Grammar.leftFactor, nothing.inlineCollisions_eq] at same
  exact ⟨c, done, by rw [judged, exact.2 (same.deterministic factored)]⟩

end Verdict

end Grammar

end Predictive
