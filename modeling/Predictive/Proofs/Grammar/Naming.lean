import Predictive.Proofs.Grammar.Passes

set_option autoImplicit false

namespace Predictive

namespace Grammar

variable {g h : Grammar}

/-- The grammars have the same non-terminals and the same terminals. -/
structure SameSymbols (g h : Grammar) : Prop where
  names : h.names = g.names
  terminals : h.terminals = g.terminals

namespace SameSymbols

theorem refl (g : Grammar) : g.SameSymbols g := ⟨rfl, rfl⟩

theorem trans {k : Grammar} (first : g.SameSymbols h) (second : h.SameSymbols k) :
    g.SameSymbols k := ⟨second.names.trans first.names, second.terminals.trans first.terminals⟩

theorem setBodies (g : Grammar) (head : Symbol) (bodies : OrderedSet Body) :
    g.SameSymbols (g.setBodies head bodies) := ⟨names_setBodies g head bodies, rfl⟩

theorem foldl {α : Type} {step : Grammar → α → Grammar}
    (each : ∀ (h : Grammar) (x : α), h.SameSymbols (step h x)) (l : List α) (g : Grammar) :
    g.SameSymbols (l.foldl step g) :=
  List.foldlRecOn l step (.refl g) fun h kept x _ => kept.trans (each h x)

theorem expandVisited (g : Grammar) (visited : List Symbol) (head : Symbol) :
    g.SameSymbols (g.expandVisited visited head) := by
  refine foldl (fun h earlier => ?_) visited g
  simp only [expandLeading]
  split
  · exact .refl h
  · exact .setBodies h head _

theorem inlineCollisions (g : Grammar) : g.SameSymbols g.inlineCollisions := by
  refine foldl (fun h group => foldl (fun h head => ?_) h.names h) _ g
  unfold inlineGroup
  split
  · exact .refl h
  · refine foldl (fun h inlined => ?_) _ h
    simp only [inline]
    split
    · exact .refl h
    · exact .setBodies h head _

end SameSymbols

theorem SameRules.sameSymbols (same : g.SameRules h) : g.SameSymbols h := ⟨same.names, same.terminals⟩

/-- A grammar and the names that were made for it, from the first to the last. -/
structure Naming where
  grammar : Grammar
  made : List Symbol

namespace Naming

/-- Rewrites the grammar without a new name. -/
def keep (n : Naming) (rewritten : Grammar) : Naming := ⟨rewritten, n.made⟩

/-- Rewrites the grammar with a new name, which is made from `head`. -/
def make (n : Naming) (head : Symbol) (rewrite : Symbol → Grammar) : Naming :=
  let fresh := n.grammar.freshName head
  ⟨rewrite fresh, n.made ++ [fresh]⟩

def removeImmediate (n : Naming) (head : Symbol) : Naming :=
  let g := n.grammar
  if (g.bodiesStarting head head).isEmpty || (g.directBodies head).isEmpty then n
  else if (g.recursiveTails head).isEmpty then n.keep (g.setBodies head (g.directBodies head))
  else n.make head fun fresh =>
    g.loopThrough head fresh (g.directBodies head) (g.recursiveTails head)

def eliminateFrom (visited : List Symbol) : List Symbol → Naming → Naming
  | [], n => n
  | head :: rest, n =>
    let expanded := n.keep (n.grammar.expandVisited visited head)
    eliminateFrom (visited ++ [head]) rest (expanded.removeImmediate head)

def eliminateLeftRecursion (n : Naming) : Naming := eliminateFrom [] n.grammar.names n

def factor (n : Naming) (head : Symbol) : Naming :=
  let g := n.grammar
  if (g.sharedPrefix head).isEmpty then n else n.make head (g.factorInto head)

def leftFactor (n : Naming) : Naming :=
  let inlined := n.keep n.grammar.inlineCollisions
  inlined.grammar.names.foldl factor inlined

/-- The pass, with the names that it makes put behind those that were made before. -/
def apply (n : Naming) : Pass → Except Fault Naming
  | .eliminateLeftRecursion => .ok n.eliminateLeftRecursion
  | .eliminateImmediateLeftRecursion name => do
    let _ ← n.grammar.productions name
    return n.removeImmediate name
  | .leftFactor => .ok n.leftFactor
  | .convert => do
    let factored := n.eliminateLeftRecursion.leftFactor
    let computed ← factored.grammar.computeFirstFollow
    return factored.keep computed
  | .computeFirstFollow => do
    let computed ← n.grammar.computeFirstFollow
    return n.keep computed
  | .resetFirstFollow => .ok (n.keep n.grammar.resetFirstFollow)

section Erasure

variable (n : Naming)

theorem grammar_removeImmediate (head : Symbol) :
    (n.removeImmediate head).grammar = n.grammar.removeImmediate head := by
  simp only [removeImmediate, Grammar.removeImmediate]
  split
  · rfl
  · split <;> rfl

theorem grammar_eliminateFrom (visited rest : List Symbol) :
    (eliminateFrom visited rest n).grammar = Grammar.eliminateFrom visited rest n.grammar := by
  induction rest generalizing visited n with
  | nil => rfl
  | cons head rest ih =>
      rw [eliminateFrom, ih, grammar_removeImmediate]
      rfl

theorem grammar_factor (head : Symbol) : (n.factor head).grammar = n.grammar.factor head := by
  simp only [factor, Grammar.factor]
  split <;> rfl

theorem grammar_eliminateLeftRecursion :
    n.eliminateLeftRecursion.grammar = n.grammar.eliminateLeftRecursion :=
  grammar_eliminateFrom n [] n.grammar.names

theorem grammar_leftFactor : n.leftFactor.grammar = n.grammar.leftFactor := by
  have each (heads : List Symbol) (n : Naming) :
      (heads.foldl factor n).grammar = heads.foldl Grammar.factor n.grammar := by
    induction heads generalizing n with
    | nil => rfl
    | cons head heads ih => rw [List.foldl_cons, List.foldl_cons, ih, grammar_factor]
  exact each _ _

theorem map_apply (pass : Pass) : (n.apply pass).map grammar = pass.apply n.grammar := by
  cases pass with
  | eliminateLeftRecursion => exact congrArg Except.ok (grammar_eliminateLeftRecursion n)
  | eliminateImmediateLeftRecursion name =>
      rw [apply, Pass.apply, eliminateImmediateLeftRecursion]
      cases n.grammar.productions name with
      | error fault => rfl
      | ok bodies => exact congrArg Except.ok (grammar_removeImmediate n name)
  | leftFactor => exact congrArg Except.ok (grammar_leftFactor n)
  | convert =>
      rw [apply, Pass.apply, convert, ← grammar_eliminateLeftRecursion, ← grammar_leftFactor]
      show Except.map grammar (_ >>= _) = _
      cases n.eliminateLeftRecursion.leftFactor.grammar.computeFirstFollow <;> rfl
  | computeFirstFollow =>
      rw [apply, Pass.apply]
      cases n.grammar.computeFirstFollow <;> rfl
  | resetFirstFollow => rfl

end Erasure

end Naming

/-- The non-terminals are those of `g` and the names that were made since, each of them once and none
of them a symbol of `g`. -/
structure Accounts (g : Grammar) (n : Naming) : Prop where
  terminals : n.grammar.terminals = g.terminals
  names : ∀ s, s ∈ n.grammar.names ↔ s ∈ n.made ∨ s ∈ g.names
  distinct : n.made.Nodup
  new : ∀ s ∈ n.made, s ∉ g.names ∧ s ∉ g.terminals

namespace Accounts

variable {n : Naming}

theorem start (g : Grammar) : g.Accounts ⟨g, []⟩ where
  terminals := rfl
  names := by simp
  distinct := .nil
  new := by simp

theorem keep (accounts : g.Accounts n) (same : n.grammar.SameSymbols h) : g.Accounts (n.keep h) where
  terminals := same.terminals.trans accounts.terminals
  names s := by
    rw [Naming.keep, same.names]
    exact accounts.names s
  distinct := accounts.distinct
  new := accounts.new

/-- A name that is no symbol now was never made, and it is none of the symbols of the beginning. -/
theorem make (accounts : g.Accounts n) (head : Symbol) {rewrite : Symbol → Grammar}
    {bodies loops : Symbol → OrderedSet Body}
    (adds : ∀ fresh, rewrite fresh =
      (n.grammar.setBodies head (bodies fresh)).addNonTerminal fresh (loops fresh)) :
    g.Accounts (n.make head rewrite) := by
  have unused := n.grammar.freshName_not_mem_allSymbols head
  rw [mem_allSymbols, not_or, accounts.terminals, accounts.names, not_or] at unused
  obtain ⟨⟨unmade, unnamed⟩, noTerminal⟩ := unused
  constructor
  · rw [Naming.make, adds]
    exact accounts.terminals
  · intro s
    rw [Naming.make, adds, mem_names_addNonTerminal, names_setBodies, accounts.names,
      List.mem_append, List.mem_singleton]
    tauto
  · refine List.nodup_append.2 ⟨accounts.distinct, List.nodup_singleton _, ?_⟩
    intro s before t last same
    rw [List.mem_singleton.1 last] at same
    exact unmade (same ▸ before)
  · intro s inside
    rcases List.mem_append.1 inside with before | last
    · exact accounts.new s before
    · rw [List.mem_singleton.1 last]
      exact ⟨unnamed, noTerminal⟩

theorem removeImmediate (accounts : g.Accounts n) (head : Symbol) :
    g.Accounts (n.removeImmediate head) := by
  simp only [Naming.removeImmediate]
  split
  · exact accounts
  · split
    · exact accounts.keep (.setBodies n.grammar head _)
    · exact accounts.make head fun fresh => rfl

theorem eliminateFrom (accounts : g.Accounts n) (visited rest : List Symbol) :
    g.Accounts (Naming.eliminateFrom visited rest n) := by
  induction rest generalizing visited n with
  | nil => exact accounts
  | cons head rest ih =>
      have expanded := accounts.keep (.expandVisited n.grammar visited head)
      exact ih (expanded.removeImmediate head) (visited ++ [head])

theorem factor (accounts : g.Accounts n) (head : Symbol) : g.Accounts (n.factor head) := by
  simp only [Naming.factor]
  split
  · exact accounts
  · exact accounts.make head fun fresh => rfl

theorem leftFactor (accounts : g.Accounts n) : g.Accounts n.leftFactor :=
  List.foldlRecOn (motive := g.Accounts) _ _ (accounts.keep (.inlineCollisions n.grammar))
    fun _ reached head _ => reached.factor head

theorem apply {n' : Naming} {pass : Pass} (accounts : g.Accounts n) (valid : n.grammar.WellFormed)
    (done : n.apply pass = .ok n') : g.Accounts n' := by
  cases pass with
  | eliminateLeftRecursion =>
      obtain rfl := Except.ok.inj done
      exact accounts.eliminateFrom [] n.grammar.names
  | eliminateImmediateLeftRecursion name =>
      obtain ⟨bodies, -, made⟩ := bind_eq_ok_iff.1 done
      obtain rfl := pure_eq_ok_iff.1 made
      exact accounts.removeImmediate name
  | leftFactor =>
      obtain rfl := Except.ok.inj done
      exact accounts.leftFactor
  | convert =>
      obtain ⟨computed, answered, made⟩ := bind_eq_ok_iff.1 done
      obtain rfl := pure_eq_ok_iff.1 made
      have eliminated := (preserves_eliminateLeftRecursion valid).wellFormed
      rw [← Naming.grammar_eliminateLeftRecursion] at eliminated
      have factored := (rewrites_leftFactor eliminated).wellFormed
      rw [← Naming.grammar_leftFactor] at factored
      have accounts' := (accounts.eliminateFrom [] n.grammar.names).leftFactor
      exact accounts'.keep (current_of_computeFirstFollow factored answered).1.sameSymbols
  | computeFirstFollow =>
      obtain ⟨computed, answered, made⟩ := bind_eq_ok_iff.1 done
      obtain rfl := pure_eq_ok_iff.1 made
      exact accounts.keep (current_of_computeFirstFollow valid answered).1.sameSymbols
  | resetFirstFollow =>
      obtain rfl := Except.ok.inj done
      exact accounts.keep (sameRules_resetFirstFollow _).sameSymbols

theorem exists_foldlM {passes : List Pass} (accounts : g.Accounts n) (reachable : n.grammar.Reachable)
    (applicable : Pass.AllApplicable passes n.grammar) :
    ∃ n', passes.foldlM Naming.apply n = .ok n' ∧
      passes.foldlM Pass.apply n.grammar = .ok n'.grammar ∧ g.Accounts n' := by
  induction passes generalizing n with
  | nil => exact ⟨n, rfl, rfl, accounts⟩
  | cons pass passes ih =>
      obtain ⟨first, later⟩ := applicable
      obtain ⟨grammar, done, reachable', -⟩ := reachable.exists_apply first
      have erased := n.map_apply pass
      rw [done] at erased
      cases applied : n.apply pass with
      | error fault =>
          rw [applied] at erased
          contradiction
      | ok next =>
          rw [applied] at erased
          obtain rfl := Except.ok.inj erased
          have accounts' := accounts.apply reachable.wellFormed applied
          obtain ⟨n', run, erased', accounts''⟩ := ih accounts' reachable' (later _ done)
          refine ⟨n', ?_, ?_, accounts''⟩
          · rw [List.foldlM_cons, applied]
            exact run
          · rw [List.foldlM_cons, done]
            exact erased'

end Accounts

/-- For any grammar and any name, the search that puts a prime behind the name, and another one as long
as that makes a symbol, comes to an end: at the name with the fewest primes, at least one, that is
neither a non-terminal nor a terminal. So in any run of passes on a grammar that was read from a text
no name is made twice, and none is a non-terminal or a terminal of the text; the names that were made
are what the grammar has in the end besides the non-terminals of the text. -/
theorem freshName_least_and_made_once :
    (∀ (g : Grammar) (name : Symbol), ∃ count, 1 ≤ count ∧ g.freshName name = primed name count ∧
      Settles g.lengthen count (name.push '\'') (g.freshName name) ∧
      (primed name count ∉ g.names ∧ primed name count ∉ g.terminals) ∧
      ∀ fewer, 1 ≤ fewer → fewer < count →
        primed name fewer ∈ g.names ∨ primed name fewer ∈ g.terminals) ∧
    ∀ (text : String) (g : Grammar) (passes : List Pass), Grammar.parse text = .ok g →
      Pass.AllApplicable passes g →
        ∃ n : Naming, passes.foldlM Naming.apply ⟨g, []⟩ = .ok n ∧
          passes.foldlM Pass.apply g = .ok n.grammar ∧ n.made.Nodup ∧
          (∀ name ∈ n.made, name ∉ g.names ∧ name ∉ g.terminals) ∧
          ∀ name, name ∈ n.grammar.names ↔ name ∈ n.made ∨ name ∈ g.names := by
  constructor
  · intro g name
    obtain ⟨count, some, same, settles, free, used⟩ := g.settles_freshName name
    rw [mem_allSymbols, not_or] at free
    exact ⟨count, some, same, settles, free, fun fewer some' below =>
      mem_allSymbols.1 (used fewer some' below)⟩
  · intro text g passes read applicable
    obtain ⟨n, run, erased, accounts⟩ := (Accounts.start g).exists_foldlM (.parse read) applicable
    exact ⟨n, run, erased, accounts.distinct, accounts.new, accounts.names⟩

/-- Passes that make names from `S'` and from `S`. -/
def namingPasses : List Pass :=
  [.eliminateImmediateLeftRecursion "S'", .eliminateLeftRecursion, .leftFactor]

theorem primedGrammar_made_once :
    primedGrammar.freshName "S'" = "S''" ∧ primedGrammar.freshName "S" = "S''" ∧
      Grammar.parse "S -> S a | b S' | b c\nS' -> S' d | &" = .ok primedGrammar ∧
      Pass.AllApplicable namingPasses primedGrammar ∧
      ∃ n : Naming, namingPasses.foldlM Naming.apply ⟨primedGrammar, []⟩ = .ok n ∧
        n.made = ["S''", "S'''", "S''''"] ∧ n.made.Nodup ∧
        ∀ name ∈ n.made, name ∉ primedGrammar.names ∧ name ∉ primedGrammar.terminals := by
  have read : Grammar.parse "S -> S a | b S' | b c\nS' -> S' d | &" = .ok primedGrammar := rfl
  have known : "S'" ∈ primedGrammar.names := by decide
  have applicable : Pass.AllApplicable namingPasses primedGrammar :=
    ⟨known, fun _ _ => ⟨trivial, fun _ _ => ⟨trivial, fun _ _ => trivial⟩⟩⟩
  obtain ⟨-, runs⟩ := freshName_least_and_made_once
  obtain ⟨n, run, -, once, new, -⟩ := runs _ primedGrammar namingPasses read applicable
  have listed : (namingPasses.foldlM Naming.apply ⟨primedGrammar, []⟩).toOption.map Naming.made =
      some ["S''", "S'''", "S''''"] := by decide +kernel
  rw [run] at listed
  exact ⟨by decide, by decide, read, applicable, n, run, Option.some.inj listed, once, new⟩

end Grammar

end Predictive
