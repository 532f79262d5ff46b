import Predictive.Proofs.Factoring.Rounds
import Predictive.Proofs.Prediction.Unfolding

set_option autoImplicit false

namespace Predictive

namespace Grammar

variable {g g' : Grammar} {head head' fresh inlined name t : Symbol} {b c : Body} {u : List Symbol}

theorem Separated.inline (separated : g.Separated) (valid : g.WellFormed) (known : head ∈ g.names)
    (unfolded : inlined ∈ g.names) (apart : inlined ≠ head) :
    (g.inline head inlined).Separated := by
  simp only [Grammar.inline]
  split
  case isTrue => exact separated
  case isFalse =>
    have preserved := preserves_of_unfolds valid known unfolded apart
      (fun c chosen => (mem_filter_mentions.1 chosen).1)
      fun c chosen => unfolds_expandFirst valid unfolded (mem_filter_mentions.1 chosen).2
    refine (unfolded_setBodies known (fun c chosen => (mem_filter_mentions.1 chosen).1)
      fun c chosen => unfolds_expandFirst valid unfolded
        (mem_filter_mentions.1 chosen).2).separated valid preserved separated ?_
    intro b inside spared c _ before after rest _ _ same
    have among : inlined ∈ Body.symbols b := by
      rw [same]
      exact List.mem_append_right before List.mem_cons_self
    exact spared (mem_filter_mentions.2 ⟨inside, (Body.mem_symbols.1 among).1⟩)

/-- The symbols that a factored body has behind the shared prefix. -/
def behindPrefix (g : Grammar) (head : Symbol) (c : Body) : List Symbol :=
  Body.symbols (c.drop (g.sharedPrefix head).length)

theorem mem_bodies_of_factored (among : c ∈ g.factoredBodies head) : c ∈ g.bodies head :=
  (mem_candidates.1 (mem_factoredBodies.1 among).1).1

theorem FactorsByPrefix.symbols_eq (begin : g.FactorsByPrefix head)
    (among : c ∈ g.factoredBodies head) :
    Body.symbols c = Body.symbols (g.sharedPrefix head) ++ g.behindPrefix head c := by
  rw [symbols_eq_of_begins (begin c among), Body.symbols_normalize]
  rfl

theorem mem_factoredBodies_of_begins (valid : g.WellFormed) (inside : b ∈ g.bodies head)
    (shared : g.sharedPrefix head ≠ []) {rest : List Symbol}
    (split : Body.symbols b = Body.symbols (g.sharedPrefix head) ++ rest) :
    b ∈ g.factoredBodies head := by
  obtain ⟨c, among, begins⟩ := exists_factored shared
  obtain ⟨inside', other⟩ := mem_candidates.1 (mem_factoredBodies.1 among).1
  obtain ⟨-, without⟩ := (valid.fits head c inside').1.resolve_left other
  have clean : Body.symbols (g.sharedPrefix head) = g.sharedPrefix head :=
    Body.symbols_of_not_mem fun within => without (begins.subset within)
  rw [clean] at split
  have some : Body.symbols b ≠ [] := by
    rw [split]
    exact List.append_ne_nil_of_left_ne_nil shared rest
  refine mem_factoredBodies.2 ⟨mem_candidates.2 ⟨inside, ?_⟩, fun s within => ?_⟩
  · rintro rfl
    exact some rfl
  · rw [← (valid.fits head b inside).symbols_eq some, split]
    exact List.mem_append_left rest within

namespace Factors

variable (factors : g.Factors g' head fresh) (valid : g.WellFormed)
  (begin : g.FactorsByPrefix head)

include factors

theorem mem_rest (among : c ∈ g.factoredBodies head) :
    ∃ b ∈ g'.bodies fresh, Body.symbols b = g.behindPrefix head c :=
  ⟨_, (factors.rest _).2 ⟨c, among, rfl⟩, Body.symbols_normalize _⟩

theorem exists_of_mem_rest (inside : b ∈ g'.bodies fresh) :
    ∃ c ∈ g.factoredBodies head, Body.symbols b = g.behindPrefix head c := by
  obtain ⟨c, among, rfl⟩ := (factors.rest b).1 inside
  exact ⟨c, among, Body.symbols_normalize _⟩

include valid begin

omit factors in
theorem behindPrefix_known (among : c ∈ g.factoredBodies head) :
    ∀ s ∈ g.behindPrefix head c, s ∈ g.allSymbols := by
  have all := (valid.fits head c (mem_bodies_of_factored among)).2
  rw [begin.symbols_eq among, List.forall_mem_append] at all
  exact all.2

omit factors in
theorem prefix_known (shared : g.sharedPrefix head ≠ []) :
    ∀ s ∈ Body.symbols (g.sharedPrefix head), s ∈ g.allSymbols := by
  obtain ⟨c, among, -⟩ := exists_factored shared
  have all := (valid.fits head c (mem_bodies_of_factored among)).2
  rw [begin.symbols_eq among, List.forall_mem_append] at all
  exact all.1

theorem productive (productive : g.Productive) : g'.Productive := by
  have preserved := factors.preserves valid begin
  apply preserved.productive_of_new productive
  intro name named new
  obtain rfl := ((factors.names name).1 named).resolve_right new
  obtain ⟨c, among, -⟩ := exists_factored factors.shared
  have known := behindPrefix_known valid begin among
  obtain ⟨w, plain, derived⟩ := productive.exists_derives known
  obtain ⟨b, inside, symbols⟩ := factors.mem_rest among
  refine ⟨w, preserved.terminalString_iff.2 plain, derives_of_mem_bodies inside ?_⟩
  rw [symbols]
  exact (preserved.derives_iff valid known plain).1 derived

/-- What opens or passes the fresh non-terminal behind a form does so with what some factored body
has behind the prefix. -/
theorem exists_behindPrefix {P : Prop} (productive : g.Productive)
    (known : ∀ s ∈ u, s ∈ g.allSymbols)
    (called : g'.Opens (u ++ [fresh]) t ∨ g'.Derives (u ++ [fresh]) [] ∧ P) :
    ∃ c ∈ g.factoredBodies head,
      g.Opens (u ++ g.behindPrefix head c) t ∨ g.Derives (u ++ g.behindPrefix head c) [] ∧ P := by
  have preserved := factors.preserves valid begin
  have productive' := factors.productive valid begin productive
  have opens_iff (w : List Symbol) (known : ∀ s ∈ w, s ∈ g.allSymbols) :=
    preserved.opens_iff (t := t) valid productive productive' known
  rw [opens_append_iff, derives_append_nil_iff, ← opens_iff u known,
    ← preserved.derives_nil_iff valid known] at called
  have expand : ∀ v, g'.Derives [fresh] v → v ≠ [fresh] →
      ∃ c ∈ g.factoredBodies head, g'.Derives (g.behindPrefix head c) v := by
    intro v derived other
    obtain ⟨b, inside, body⟩ := (derives_singleton_iff.1 derived).resolve_left other
    obtain ⟨c, among, symbols⟩ := factors.exists_of_mem_rest inside
    rw [symbols] at body
    exact ⟨c, among, body⟩
  rcases called with (opens | ⟨empty, terminal, rest, derived⟩) | ⟨⟨empty, nothing⟩, holds⟩
  · obtain ⟨c, among, -⟩ := exists_factored factors.shared
    exact ⟨c, among, .inl (opens_append_iff.2 (.inl opens))⟩
  · have other : t :: rest ≠ [fresh] := by
      intro same
      obtain ⟨rfl, -⟩ := List.cons.inj same
      exact factors.unused (mem_allSymbols.2 (.inr (factors.terminals ▸ terminal)))
    obtain ⟨c, among, derived'⟩ := expand _ derived other
    have opens := (opens_iff _ (behindPrefix_known valid begin among)).2 ⟨terminal, rest, derived'⟩
    exact ⟨c, among, .inl (opens_append_iff.2 (.inr ⟨empty, opens⟩))⟩
  · obtain ⟨c, among, derived'⟩ := expand _ nothing (by simp)
    have nothing' := (preserved.derives_nil_iff valid (behindPrefix_known valid begin among)).2 derived'
    exact ⟨c, among, .inr ⟨derives_append_nil_iff.2 ⟨empty, nothing'⟩, holds⟩⟩

theorem follows_of_old (productive : g.Productive) {front rest : List Symbol}
    (inside : c ∈ g.bodies head') (split : Body.symbols c = front ++ name :: rest)
    (called : g'.Opens rest t ∨ g'.Derives rest [] ∧ g.Follows head' t) :
    g.Follows (if name = fresh then head else name) t := by
  rw [if_neg (factors.ne_fresh_of_mem (valid.known_around inside split).1)]
  exact (factors.preserves valid begin).follows_of_called valid productive
    (factors.productive valid begin productive) inside split called

theorem follows_of_prefix (productive : g.Productive) {front mid : List Symbol}
    (shared : Body.symbols (g.sharedPrefix head) = front ++ name :: mid)
    (called : g'.Opens (mid ++ [fresh]) t ∨ g'.Derives (mid ++ [fresh]) [] ∧ g.Follows head t) :
    g.Follows (if name = fresh then head else name) t := by
  have known := prefix_known valid begin factors.shared
  rw [shared, List.forall_mem_append, List.forall_mem_cons] at known
  obtain ⟨-, here, later⟩ := known
  obtain ⟨c, among, predicts⟩ := factors.exists_behindPrefix valid begin productive later called
  have whole := begin.symbols_eq among
  rw [shared, List.append_assoc, List.cons_append] at whole
  rw [if_neg (factors.ne_fresh_of_mem here)]
  exact follows_of_predicts (mem_bodies_of_factored among) whole predicts

/-- What follows a non-terminal followed it before, and what follows the fresh one followed the
head. -/
theorem follows (productive : g.Productive) (behind : g'.Follows name t) :
    g.Follows (if name = fresh then head else name) t := by
  refine behind.of_closed (Q := fun name t => g.Follows (if name = fresh then head else name) t) ?_
    fun head' b front name rest t inside split called => ?_
  · rw [factors.start, if_neg (factors.ne_fresh_of_mem (mem_allSymbols.2 (.inl valid.start)))]
    exact .start
  · by_cases isFresh : head' = fresh
    · subst isFresh
      obtain ⟨c, among, symbols⟩ := factors.exists_of_mem_rest inside
      have whole : Body.symbols c =
          Body.symbols (g.sharedPrefix head) ++ front ++ name :: rest := by
        rw [begin.symbols_eq among, ← symbols, split, List.append_assoc]
      rw [if_pos rfl] at called
      exact factors.follows_of_old valid begin productive (mem_bodies_of_factored among) whole called
    · rw [if_neg isFresh] at called
      by_cases isHead : head' = head
      · subst isHead
        rcases (factors.kept b).1 inside with rfl | ⟨kept, -⟩
        · rw [factors.symbols_join_fresh] at split
          rcases occurrence_append_singleton split with ⟨mid, shared, rfl⟩ | ⟨-, rfl, rfl⟩
          · exact factors.follows_of_prefix valid begin productive shared called
          · rw [if_pos rfl]
            exact (called.resolve_left not_opens_nil).2
        · exact factors.follows_of_old valid begin productive kept split called
      · rw [factors.bodies head' isHead isFresh] at inside
        exact factors.follows_of_old valid begin productive inside split called

theorem follows_old (productive : g.Productive) (old : name ≠ fresh) (behind : g'.Follows name t) :
    g.Follows name t := by
  have before := factors.follows valid begin productive behind
  rwa [if_neg old] at before

theorem follows_fresh (productive : g.Productive) (behind : g'.Follows fresh t) :
    g.Follows head t := by
  have before := factors.follows valid begin productive behind
  rwa [if_pos rfl] at before

theorem apart_kept (separated : g.Separated) (kept : b ∈ g.bodies head)
    (spared : b ∉ g.factoredBodies head) :
    g'.Apart head (Body.symbols (g.sharedPrefix head) ++ [fresh]) (Body.symbols b) := by
  have preserved := factors.preserves valid begin
  have productive' := factors.productive valid begin separated.productive
  have fit := valid.fits head b kept
  obtain ⟨common, x, y, left, right, parted⟩ :=
    exists_shared (Body.symbols (g.sharedPrefix head)) (Body.symbols b)
  have more : x ≠ [] := by
    rintro rfl
    rw [List.append_nil] at left
    rw [← left] at right
    exact spared (mem_factoredBodies_of_begins valid kept factors.shared right)
  have differ : x.head? ≠ y.head? := parted.resolve_right fun both => more both.1
  have known := prefix_known valid begin factors.shared
  rw [left, List.forall_mem_append] at known
  have known' := fit.2
  rw [right, List.forall_mem_append] at known'
  have behind : ∀ t, g'.Follows head t → g.Follows head t := fun _ =>
    factors.follows_old valid begin separated.productive factors.apart
  rw [left, right, List.append_assoc, apart_append_left_iff]
  apply Disjoint.apart productive'
  · intro t both
    have called := both.1.imp_right (And.imp_right (behind t))
    obtain ⟨c, among, predicts⟩ :=
      factors.exists_behindPrefix valid begin separated.productive known.2 called
    have old := preserved.predicts valid separated.productive productive' behind known'.2 both.2
    have whole := begin.symbols_eq among
    rw [left, List.append_assoc] at whole
    refine separated.apart head c (mem_bodies_of_factored among) b kept common _ y whole right ?_ t
      ⟨predicts, old⟩
    obtain ⟨s, x, rfl⟩ := List.exists_cons_of_ne_nil more
    exact differ
  · rw [List.forall_mem_append, List.forall_mem_singleton]
    exact ⟨fun s among => preserved.mem_allSymbols (known.2 s among),
      factors.mem_allSymbols_iff.2 (.inl rfl)⟩

theorem separated (separated : g.Separated) : g'.Separated := by
  have preserved := factors.preserves valid begin
  have productive' := factors.productive valid begin separated.productive
  have transfer {name name' : Symbol} {u v : List Symbol}
      (behind : ∀ t, g'.Follows name' t → g.Follows name t) :=
    preserved.apart (u := u) (v := v) valid separated.productive productive' behind
  refine ⟨productive', fun name b inside b' inside' => ?_⟩
  by_cases isFresh : name = fresh
  · subst isFresh
    obtain ⟨c, among, symbols⟩ := factors.exists_of_mem_rest inside
    obtain ⟨c', among', symbols'⟩ := factors.exists_of_mem_rest inside'
    have apart := separated.apart head c (mem_bodies_of_factored among) c'
      (mem_bodies_of_factored among')
    rw [begin.symbols_eq among, begin.symbols_eq among', apart_append_left_iff] at apart
    rw [symbols, symbols']
    exact transfer (fun _ => factors.follows_fresh valid begin separated.productive)
      (behindPrefix_known valid begin among) (behindPrefix_known valid begin among') apart
  · have old {c c' : Body} (kept : c ∈ g.bodies name) (kept' : c' ∈ g.bodies name) :
        g'.Apart name (Body.symbols c) (Body.symbols c') :=
      transfer (fun _ => factors.follows_old valid begin separated.productive isFresh)
        (valid.fits name c kept).2 (valid.fits name c' kept').2 (separated.apart name c kept c' kept')
    by_cases isHead : name = head
    · subst isHead
      rcases (factors.kept b).1 inside with rfl | ⟨kept, spared⟩
      · rcases (factors.kept b').1 inside' with rfl | ⟨kept', spared'⟩
        · exact apart_self g' name _
        · rw [factors.symbols_join_fresh]
          exact factors.apart_kept valid begin separated kept' spared'
      · rcases (factors.kept b').1 inside' with rfl | ⟨kept', -⟩
        · rw [factors.symbols_join_fresh]
          exact (factors.apart_kept valid begin separated kept spared).symm
        · exact old kept kept'
    · rw [factors.bodies name isHead isFresh] at inside inside'
      exact old inside inside'

end Factors

theorem Separated.leftFactor (separated : g.Separated) (valid : g.WellFormed)
    (begin : g.LeftFactorsByPrefix) : g.leftFactor.Separated := by
  obtain ⟨inlined, separated⟩ := inlineCollisions_induction (I := Separated)
    (fun h head inlined valid known known' apart separated =>
      separated.inline valid known known' apart) valid separated
  refine (foldl_factor_induction (I := Separated) inlined.wellFormed (fun _ named => named) begin
    separated fun h head valid known begin separated => ?_).2
  unfold factor
  split
  case isTrue => exact separated
  case isFalse shared =>
    refine (factors_factorInto valid known ?_).separated valid begin separated
    simpa only [List.isEmpty_iff] using shared

end Grammar

end Predictive
