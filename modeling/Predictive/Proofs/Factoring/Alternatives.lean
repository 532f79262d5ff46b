import Predictive.Proofs.Collection.Size
import Predictive.Proofs.Factoring.Rounds
import Predictive.Proofs.Grammar.Reachable
import Mathlib.Data.List.Pairwise
import Mathlib.Logic.Function.Basic

set_option autoImplicit false

namespace Predictive

namespace Grammar

variable {g h g' : Grammar} {head fresh name : Symbol} {b c : Body}

/-- Two alternatives of `head` other than `&` begin with the same symbol. -/
def Collides (g : Grammar) (head : Symbol) : Prop :=
  ∃ b ∈ g.candidates head, ∃ c ∈ g.candidates head,
    b ≠ c ∧ ∃ s, Body.startsWith s b = true ∧ Body.startsWith s c = true

section SharedPrefix

theorem nodup_candidates (g : Grammar) (head : Symbol) : (g.candidates head).Nodup :=
  (OrderedSet.nodup_toList _).filter _

theorem length_le_sharedPrefix {q : List Symbol} (inside : b ∈ g.candidates head)
    (inside' : c ∈ g.candidates head) (other : b ≠ c) (begins : q <+: b) (begins' : q <+: c) :
    q.length ≤ (g.sharedPrefix head).length := by
  have symmetric : Std.Symm fun b c : Body => commonPrefixSize b c ≤ (g.sharedPrefix head).length := by
    constructor
    intro b c small
    rwa [commonPrefixSize, commonPrefix_comm]
  have pairs : (g.candidates head).Pairwise fun b c =>
      commonPrefixSize b c ≤ (g.sharedPrefix head).length := pairwise_longestCommonPrefix _
  exact Nat.le_trans (isPrefix_commonPrefix begins begins').length_le
    (pairs.forall inside inside' other)

theorem exists_two_begin (shared : g.sharedPrefix head ≠ []) :
    ∃ b ∈ g.candidates head, ∃ c ∈ g.candidates head,
      b ≠ c ∧ g.sharedPrefix head <+: b ∧ g.sharedPrefix head <+: c := by
  obtain ⟨b, c, pair, same⟩ := exists_pair_factored shared
  have other : b ≠ c := by
    have distinct := (g.nodup_candidates head).sublist pair
    simpa using distinct
  refine ⟨b, pair.subset (by simp), c, pair.subset (by simp), other, ?_, ?_⟩
  · rw [same]
    exact commonPrefix_isPrefix_left b c
  · rw [same]
    exact commonPrefix_isPrefix_right b c

theorem sharedPrefix_ne_nil_iff : g.sharedPrefix head ≠ [] ↔ g.Collides head := by
  constructor
  · intro shared
    obtain ⟨s, rest, split⟩ := List.exists_cons_of_ne_nil shared
    obtain ⟨b, inside, c, inside', other, begins, begins'⟩ := exists_two_begin shared
    rw [split] at begins begins'
    obtain ⟨back, rfl⟩ := begins
    obtain ⟨back', rfl⟩ := begins'
    exact ⟨_, inside, _, inside', other, s, Body.startsWith_iff.2 ⟨_, rfl⟩,
      Body.startsWith_iff.2 ⟨_, rfl⟩⟩
  · intro collides
    obtain ⟨b, inside, c, inside', other, s, starts, starts'⟩ := collides
    obtain ⟨rest, rfl⟩ := Body.startsWith_iff.1 starts
    obtain ⟨rest', rfl⟩ := Body.startsWith_iff.1 starts'
    have long : [s].length ≤ (g.sharedPrefix head).length :=
      length_le_sharedPrefix inside inside' other ⟨rest, rfl⟩ ⟨rest', rfl⟩
    intro nothing
    rw [nothing] at long
    contradiction

theorem epsilon_not_mem_candidate (valid : g.WellFormed) (inside : b ∈ g.candidates head) :
    epsilon ∉ b := by
  obtain ⟨listed, other⟩ := mem_candidates.1 inside
  exact ((valid.fits head b listed).1.resolve_left other).2

theorem epsilon_not_mem_sharedPrefix (valid : g.WellFormed) : epsilon ∉ g.sharedPrefix head := by
  intro within
  have shared : g.sharedPrefix head ≠ [] := List.ne_nil_of_mem within
  obtain ⟨b, inside, -, -, -, begins, -⟩ := exists_two_begin shared
  exact epsilon_not_mem_candidate valid inside (begins.subset within)

end SharedPrefix

/-- What a body has behind its first symbols, as many as the shared prefix has, or `&`. -/
def behind (g : Grammar) (head : Symbol) (b : Body) : Body :=
  if b.drop (g.sharedPrefix head).length = [] then [epsilon]
  else b.drop (g.sharedPrefix head).length

/-- The alternatives that `head` has in `g` are dealt out in `g'`: it keeps `&` and those that lack a
symbol of the shared prefix, and gets the prefix with `fresh` behind it; `fresh` gets what the others
have behind as many symbols as the prefix has. -/
structure Dealt (g g' : Grammar) (head fresh : Symbol) : Prop where
  kept : ∀ b, b ∈ g'.bodies head ↔ b = g.sharedPrefix head ++ [fresh] ∨
    b = [epsilon] ∧ [epsilon] ∈ g.bodies head ∨
    b ∈ g.candidates head ∧ ∃ s ∈ g.sharedPrefix head, s ∉ b
  moved : ∀ c, c ∈ g'.bodies fresh ↔
    ∃ b ∈ g.candidates head, (∀ s ∈ g.sharedPrefix head, s ∈ b) ∧ c = g.behind head b

theorem normalize_drop (valid : g.WellFormed) (inside : b ∈ g.candidates head) :
    Body.normalize (b.drop (g.sharedPrefix head).length) = g.behind head b := by
  have without : epsilon ∉ b.drop (g.sharedPrefix head).length := fun within =>
    epsilon_not_mem_candidate valid inside (List.mem_of_mem_drop within)
  simp only [Body.normalize, behind, Body.symbols_of_not_mem without, List.isEmpty_iff]

theorem startsWith_behind (valid : g.WellFormed) (inside : b ∈ g.candidates head)
    (begins : g.sharedPrefix head <+: b) {s : Symbol}
    (starts : Body.startsWith s (g.behind head b) = true) :
    s = epsilon ∧ g.behind head b = [epsilon] ∨
      s ≠ epsilon ∧ g.sharedPrefix head ++ [s] <+: b := by
  have without := epsilon_not_mem_candidate valid inside
  obtain ⟨rest, rfl⟩ := begins
  unfold behind at starts ⊢
  rw [List.drop_left] at starts ⊢
  split at starts
  case isTrue nothing =>
    obtain ⟨back, same⟩ := Body.startsWith_iff.1 starts
    exact .inl ⟨(List.cons.inj same).1.symm, if_pos nothing⟩
  case isFalse =>
    obtain ⟨back, rfl⟩ := Body.startsWith_iff.1 starts
    refine .inr ⟨?_, back, by simp⟩
    intro mark
    subst mark
    exact without (by simp)

theorem Factors.dealt (factors : g.Factors g' head fresh) (valid : g.WellFormed) :
    g.Dealt g' head fresh where
  kept b := by
    have join : Body.join (g.sharedPrefix head) [fresh] = g.sharedPrefix head ++ [fresh] := by
      have without : epsilon ∉ g.sharedPrefix head ++ [fresh] := by
        simp [epsilon_not_mem_sharedPrefix valid, Ne.symm factors.notEpsilon]
      simp [Body.join, Body.normalize, Body.symbols_of_not_mem without]
    rw [factors.kept, join]
    refine or_congr_right ?_
    simp only [mem_factoredBodies, mem_candidates]
    by_cases mark : b = [epsilon]
    · subst mark
      simp
    · simp only [mark, ne_eq, not_false_eq_true, and_true, false_and, false_or, not_and, not_forall,
        exists_prop]
      exact and_congr_right fun listed => ⟨fun lacks => lacks listed, fun lacks _ => lacks⟩
  moved c := by
    rw [factors.rest]
    constructor
    · intro found
      obtain ⟨b, among, rfl⟩ := found
      obtain ⟨inside, holds⟩ := mem_factoredBodies.1 among
      exact ⟨b, inside, holds, normalize_drop valid inside⟩
    · intro found
      obtain ⟨b, inside, holds, rfl⟩ := found
      exact ⟨b, mem_factoredBodies.2 ⟨inside, holds⟩, (normalize_drop valid inside).symm⟩

namespace Dealt

theorem congr {h' : Grammar} (dealt : g.Dealt g' head fresh)
    (same : h.bodies head = g.bodies head) (same' : h'.bodies head = g'.bodies head)
    (rest : h'.bodies fresh = g'.bodies fresh) : h.Dealt h' head fresh := by
  have candidates : h.candidates head = g.candidates head := by
    rw [Grammar.candidates, Grammar.candidates, same]
  have shared : h.sharedPrefix head = g.sharedPrefix head := by
    rw [Grammar.sharedPrefix, Grammar.sharedPrefix, candidates]
  constructor
  · intro b
    rw [same', dealt.kept, candidates, shared, same]
  · intro c
    rw [rest, dealt.moved, candidates, shared]
    simp only [behind, shared]

theorem bodies_ne (dealt : g.Dealt g' head fresh) (valid : g.WellFormed)
    (notEpsilon : fresh ≠ epsilon) (unused : fresh ∉ g.allSymbols) :
    g'.bodies head ≠ g.bodies head := by
  intro same
  have added : g.sharedPrefix head ++ [fresh] ∈ g'.bodies head := (dealt.kept _).2 (.inl rfl)
  rw [same] at added
  apply unused
  apply (valid.fits head _ added).2
  exact Body.mem_symbols.2 ⟨by simp, notEpsilon⟩

/-- Where the alternatives that were moved begin with the prefix, no two that the fresh non-terminal
has begin alike: the prefix would have been longer. -/
theorem begin_apart (dealt : g.Dealt g' head fresh) (valid : g.WellFormed)
    (begin : ∀ b ∈ g.candidates head, (∀ s ∈ g.sharedPrefix head, s ∈ b) →
      g.sharedPrefix head <+: b) :
    ∀ c ∈ g'.bodies fresh, ∀ d ∈ g'.bodies fresh, c ≠ d →
      ¬ ∃ s, Body.startsWith s c = true ∧ Body.startsWith s d = true := by
  intro c inside d inside' other alike
  obtain ⟨s, starts, starts'⟩ := alike
  obtain ⟨b, listed, holds, rfl⟩ := (dealt.moved c).1 inside
  obtain ⟨b', listed', holds', rfl⟩ := (dealt.moved d).1 inside'
  have first := startsWith_behind valid listed (begin b listed holds) starts
  have second := startsWith_behind valid listed' (begin b' listed' holds') starts'
  rcases first with ⟨mark, same⟩ | ⟨symbol, begins⟩
  · rcases second with ⟨-, same'⟩ | ⟨symbol', -⟩
    · exact other (same.trans same'.symm)
    · exact symbol' mark
  · rcases second with ⟨mark', -⟩ | ⟨-, begins'⟩
    · exact symbol mark'
    · have differ : b ≠ b' := fun equal => other (by rw [equal])
      have longer := length_le_sharedPrefix listed listed' differ begins begins'
      rw [List.length_append] at longer
      exact absurd longer (by simp)

end Dealt

/-- In `g'` the alternatives of those of `heads` that have two which begin alike are dealt out with a
fresh name for each, and nothing else has changed. -/
structure Refactored (g g' : Grammar) (heads : List Symbol) (fresh : Symbol → Symbol) : Prop where
  names : ∀ s, s ∈ g'.names ↔ s ∈ g.names ∨ ∃ head ∈ heads, g.Collides head ∧ s = fresh head
  isFresh : ∀ head ∈ heads, g.Collides head →
    fresh head ∉ g.allSymbols ∧ ∃ count, fresh head = primed head (count + 1)
  distinct : ∀ head ∈ heads, ∀ other ∈ heads, g.Collides head → g.Collides other →
    fresh head = fresh other → head = other
  dealt : ∀ head ∈ heads, g.Collides head → g.Dealt g' head (fresh head)
  others : ∀ name ∈ g.names, (name ∈ heads → ¬ g.Collides name) → g'.bodies name = g.bodies name

theorem collides_congr (same : h.bodies head = g.bodies head) :
    h.Collides head ↔ g.Collides head := by
  simp only [Collides, candidates, same]

theorem distinct_update {P : Symbol → Prop} {heads : List Symbol} {fresh : Symbol → Symbol}
    {made : Symbol} (new : head ∉ heads) (apart : ∀ name ∈ heads, P name → made ≠ fresh name)
    (distinct : ∀ name ∈ heads, ∀ other ∈ heads, P name → P other → fresh name = fresh other →
      name = other) :
    ∀ name ∈ head :: heads, ∀ other ∈ head :: heads, P name → P other →
      Function.update fresh head made name = Function.update fresh head made other →
        name = other := by
  have differs : ∀ name ∈ heads, name ≠ head := fun name listed same => new (same ▸ listed)
  have renamed : ∀ name ∈ heads, Function.update fresh head made name = fresh name :=
    fun name listed => Function.update_of_ne (differs name listed) made fresh
  intro name inside other inside' holds holds' equal
  rcases List.mem_cons.1 inside with rfl | listed
  · rcases List.mem_cons.1 inside' with rfl | listed'
    · rfl
    · rw [Function.update_self, renamed other listed'] at equal
      exact absurd equal (apart other listed' holds')
  · rcases List.mem_cons.1 inside' with rfl | listed'
    · rw [Function.update_self, renamed name listed] at equal
      exact absurd equal.symm (apart name listed holds)
    · rw [renamed name listed, renamed other listed'] at equal
      exact distinct name listed other listed' holds holds' equal

theorem Factors.bodies_of_mem (factors : g.Factors g' head fresh) (named : name ∈ g.names)
    (other : name ≠ head) : g'.bodies name = g.bodies name :=
  factors.bodies name other (factors.ne_fresh_of_mem (mem_allSymbols.2 (.inl named)))

namespace Refactored

variable {heads : List Symbol} {fresh : Symbol → Symbol}

theorem nil (g : Grammar) : g.Refactored g [] fresh where
  names := by simp
  isFresh := by simp
  distinct := by simp
  dealt := by simp
  others _ _ _ := rfl

theorem skip (later : g.Refactored g' heads fresh) (apart : ¬ g.Collides head) :
    g.Refactored g' (head :: heads) fresh where
  names s := by
    rw [later.names]
    simp [apart]
  isFresh := List.forall_mem_cons.2 ⟨fun collides => absurd collides apart, later.isFresh⟩
  distinct := by
    intro name inside other inside' collides collides'
    have listed : name ∈ heads := (List.mem_cons.1 inside).resolve_left
      fun same => apart (same ▸ collides)
    have listed' : other ∈ heads := (List.mem_cons.1 inside').resolve_left
      fun same => apart (same ▸ collides')
    exact later.distinct name listed other listed' collides collides'
  dealt := List.forall_mem_cons.2 ⟨fun collides => absurd collides apart, later.dealt⟩
  others name named spared :=
    later.others name named fun inside => spared (List.mem_cons_of_mem head inside)

/-- A head whose alternatives are dealt out keeps what it got, and so does the fresh name: later heads
are neither of them. -/
theorem cons {a : Grammar} {made : Symbol} (valid : g.WellFormed) (factors : g.Factors a head made)
    (primed : ∃ count, made = primed head (count + 1)) (new : head ∉ heads)
    (known : ∀ name ∈ heads, name ∈ g.names) (later : a.Refactored g' heads fresh) :
    g.Refactored g' (head :: heads) (Function.update fresh head made) := by
  have collides : g.Collides head := sharedPrefix_ne_nil_iff.1 factors.shared
  have madeKnown : made ∈ a.names := (factors.names made).2 (.inl rfl)
  have unlisted : made ∉ heads := fun listed =>
    factors.unused (mem_allSymbols.2 (.inl (known made listed)))
  have other : ∀ name ∈ heads, name ≠ head := fun name listed same => new (same ▸ listed)
  have bodies : ∀ name ∈ heads, a.bodies name = g.bodies name := fun name listed =>
    factors.bodies_of_mem (known name listed) (other name listed)
  have same : ∀ name ∈ heads, (a.Collides name ↔ g.Collides name) := fun name listed =>
    collides_congr (bodies name listed)
  have renamed : ∀ name ∈ heads, Function.update fresh head made name = fresh name :=
    fun name listed => Function.update_of_ne (other name listed) made fresh
  have apart : ∀ name ∈ heads, g.Collides name → made ≠ fresh name := by
    intro name listed alike equal
    apply (later.isFresh name listed ((same name listed).2 alike)).1
    rw [← equal]
    exact mem_allSymbols.2 (.inl madeKnown)
  constructor
  · intro s
    have rest : (∃ name ∈ heads, a.Collides name ∧ s = fresh name) ↔
        ∃ name ∈ heads, g.Collides name ∧ s = Function.update fresh head made name :=
      exists_congr fun name => and_congr_right fun listed => by
        rw [same name listed, renamed name listed]
    rw [later.names, factors.names, rest]
    simp only [List.mem_cons, exists_eq_or_imp, collides, true_and, Function.update_self]
    rw [or_comm (a := s = made), or_assoc]
  · refine List.forall_mem_cons.2 ⟨fun _ => ?_, fun name listed alike => ?_⟩
    · rw [Function.update_self]
      exact ⟨factors.unused, primed⟩
    · rw [renamed name listed]
      obtain ⟨unused, primes⟩ := later.isFresh name listed ((same name listed).2 alike)
      exact ⟨fun inside => unused (factors.mem_allSymbols_iff.2 (.inr inside)), primes⟩
  · refine distinct_update new apart fun name listed name' listed' alike alike' => ?_
    exact later.distinct name listed name' listed' ((same name listed).2 alike)
      ((same name' listed').2 alike')
  · -- neither the head nor its fresh name is among the later heads
    refine List.forall_mem_cons.2 ⟨fun _ => ?_, fun name listed alike => ?_⟩
    · rw [Function.update_self]
      refine (factors.dealt valid).congr rfl ?_ ?_
      · exact later.others head ((factors.names head).2 (.inr factors.known)) fun listed =>
          absurd listed new
      · exact later.others made madeKnown fun listed => absurd listed unlisted
    · rw [renamed name listed]
      have dealt := later.dealt name listed ((same name listed).2 alike)
      exact dealt.congr (bodies name listed).symm rfl rfl
  · intro name named spared
    have different : name ≠ head := by
      intro equal
      subst equal
      exact spared List.mem_cons_self collides
    rw [← factors.bodies_of_mem named different]
    refine later.others name ((factors.names name).2 (.inr named)) fun listed alike => ?_
    exact spared (List.mem_cons_of_mem head listed) ((same name listed).1 alike)

end Refactored

theorem exists_refactored {heads : List Symbol} (valid : g.WellFormed)
    (known : ∀ name ∈ heads, name ∈ g.names) (once : heads.Nodup) :
    ∃ fresh, g.Refactored (heads.foldl factor g) heads fresh := by
  induction heads generalizing g with
  | nil => exact ⟨id, .nil g⟩
  | cons head heads ih =>
      obtain ⟨named, others⟩ := List.forall_mem_cons.1 known
      obtain ⟨new, once'⟩ := List.nodup_cons.1 once
      rw [List.foldl_cons]
      by_cases shared : g.sharedPrefix head = []
      · have idle : g.factor head = g := by
          rw [factor, shared]
          rfl
        obtain ⟨fresh, later⟩ := ih valid others once'
        rw [idle]
        exact ⟨fresh, later.skip fun collides => sharedPrefix_ne_nil_iff.2 collides shared⟩
      · have done : g.factor head = g.factorInto head (g.freshName head) := by
          rw [factor, List.isEmpty_eq_false_iff.2 shared]
          rfl
        have factors := factors_factorInto valid named shared
        have rewrites := factors.rewrites valid
        rw [done]
        obtain ⟨fresh, later⟩ := ih rewrites.wellFormed
          (fun name listed => rewrites.names name (others name listed)) once'
        obtain ⟨count, primes, -⟩ := g.freshName_spec head
        exact ⟨_, later.cons valid factors ⟨count, primes⟩ new others⟩

/-- What the factoring of all non-terminals does to their alternatives, beginning with a grammar `h`
that a program can come by, or with that grammar after inlining. One fresh non-terminal is added for
each non-terminal that has two alternatives which begin alike, and no other. Of those alternatives
`head` keeps exactly the ones that lack a symbol of the shared prefix, and the fresh non-terminal has
exactly what is behind the prefix in the others, which are at least two. If all of these begin with the
prefix, no two alternatives of the fresh non-terminal begin alike. -/
theorem Reachable.exists_dealt (reachable : g.Reachable) (either : h = g ∨ h = g.inlineCollisions) :
    ∃ fresh : Symbol → Symbol,
      (∀ s, s ∈ h.factorAll.names ↔
        s ∈ h.names ∨ ∃ head ∈ h.names, h.Collides head ∧ s = fresh head) ∧
      (∀ head ∈ h.names, ∀ other ∈ h.names, h.Collides head → h.Collides other →
        fresh head = fresh other → head = other) ∧
      ∀ head ∈ h.names,
        (h.factorAll.bodies head = h.bodies head ↔ ¬ h.Collides head) ∧
        (h.Collides head →
          (fresh head ∉ h.allSymbols ∧ ∃ count, fresh head = primed head (count + 1)) ∧
          h.Dealt h.factorAll head (fresh head) ∧
          (∃ b ∈ h.candidates head, ∃ c ∈ h.candidates head, b ≠ c ∧
            (∀ s ∈ h.sharedPrefix head, s ∈ b) ∧ ∀ s ∈ h.sharedPrefix head, s ∈ c) ∧
          ((∀ b ∈ h.candidates head, (∀ s ∈ h.sharedPrefix head, s ∈ b) →
              h.sharedPrefix head <+: b) →
            ∀ c ∈ h.factorAll.bodies (fresh head), ∀ d ∈ h.factorAll.bodies (fresh head), c ≠ d →
              ¬ ∃ s, Body.startsWith s c = true ∧ Body.startsWith s d = true)) := by
  have valid : h.WellFormed := by
    rcases either with rfl | rfl
    · exact reachable.wellFormed
    · exact (preserves_inlineCollisions reachable.wellFormed).wellFormed
  have once : h.names.Nodup := OrderedSet.nodup_of_pairwise h.nonTerminals.increasing_keys
  obtain ⟨fresh, refactored⟩ := exists_refactored valid (fun _ named => named) once
  refine ⟨fresh, refactored.names, refactored.distinct, fun head named => ?_⟩
  have dealt := refactored.dealt head named
  have isFresh := refactored.isFresh head named
  constructor
  · constructor
    · intro same collides
      obtain ⟨unused, count, primes⟩ := isFresh collides
      have notEpsilon : fresh head ≠ epsilon := by
        rw [primes]
        exact primed_ne_of_getLast (by decide) head count
      exact (dealt collides).bodies_ne valid notEpsilon unused same
    · intro apart
      exact refactored.others head named fun _ => apart
  · intro collides
    obtain ⟨b, inside, c, inside', other, begins, begins'⟩ :=
      exists_two_begin (sharedPrefix_ne_nil_iff.2 collides)
    have moved : ∃ b ∈ h.candidates head, ∃ c ∈ h.candidates head, b ≠ c ∧
        (∀ s ∈ h.sharedPrefix head, s ∈ b) ∧ ∀ s ∈ h.sharedPrefix head, s ∈ c :=
      ⟨b, inside, c, inside', other, fun _ => begins.mem, fun _ => begins'.mem⟩
    exact ⟨isFresh collides, dealt collides, moved, (dealt collides).begin_apart valid⟩

/-- A grammar whose alternatives begin alike once `A` and `B` are inlined, and in which one holds the
shared prefix at its end, as it is read. -/
def reorderedGrammar : Grammar where
  start := "S"
  nonTerminals :=
    .insert (.insert (.insert ∅ "S"
      (.ofProductions "S" (.ofList [["A"], ["B"], [epsilon], ["y", "a"]]))) "A"
      (.ofProductions "A" (.ofList [["a", "x"]]))) "B"
      (.ofProductions "B" (.ofList [["a", "y"]]))
  terminals := .ofList ["a", "x", "y"]
  firstFollowValid := false

theorem reorderedGrammar_dealt :
    Grammar.parse "S -> A | B | & | y a\nA -> a x\nB -> a y" = .ok reorderedGrammar ∧
      reorderedGrammar.inlineCollisions.Collides "S" ∧
      ¬ reorderedGrammar.inlineCollisions.Collides "A" ∧
      ∃ fresh : Symbol → Symbol,
        reorderedGrammar.inlineCollisions.Dealt reorderedGrammar.leftFactor "S" (fresh "S") ∧
        fresh "S" ∉ reorderedGrammar.inlineCollisions.allSymbols ∧
        reorderedGrammar.leftFactor.bodies "A" = reorderedGrammar.inlineCollisions.bodies "A" := by
  have read : Grammar.parse "S -> A | B | & | y a\nA -> a x\nB -> a y" = .ok reorderedGrammar := rfl
  have collides : reorderedGrammar.inlineCollisions.Collides "S" :=
    ⟨["a", "x"], by decide +kernel, ["a", "y"], by decide +kernel, by decide, "a", rfl, rfl⟩
  have alone : reorderedGrammar.inlineCollisions.sharedPrefix "A" = [] := by decide +kernel
  have apart : ¬ reorderedGrammar.inlineCollisions.Collides "A" := fun alike =>
    sharedPrefix_ne_nil_iff.2 alike alone
  obtain ⟨fresh, -, -, each⟩ := (Reachable.parse read).exists_dealt (.inr rfl)
  obtain ⟨⟨unused, -⟩, dealt, -⟩ := (each "S" (by decide +kernel)).2 collides
  have kept := (each "A" (by decide +kernel)).1.2 apart
  exact ⟨read, collides, apart, fresh, dealt, unused, kept⟩

end Grammar

end Predictive
