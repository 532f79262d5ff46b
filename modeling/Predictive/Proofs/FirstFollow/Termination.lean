import Predictive.Grammar.Reader
import Predictive.Proofs.FirstFollow.Computed
import Mathlib.Logic.Relation

set_option autoImplicit false

namespace Predictive

section Steps

variable {ε σ α : Type} {items : σ → List α} {step : σ → α → Except ε σ} {I : σ → Prop}
  {R : σ → σ → Prop} {start : σ}

/-- Whenever some sweeps from `start` are over and the next one has taken its steps for some of the
items, the step for the item that comes then answers, with a state above the one that it finds. -/
def StepsUp (items : σ → List α) (step : σ → α → Except ε σ) (R : σ → σ → Prop) (start : σ) : Prop :=
  ∀ s, Relation.ReflTransGen (fun s t => sweep items step s = .ok t) start s →
    ∀ front x back, items s = front ++ x :: back →
      ∃ a b, front.foldlM step s = .ok a ∧ step a x = .ok b ∧ R a b

theorem stepsUp_of_invariant (inv : I start)
    (each : ∀ s, I s → ∀ x ∈ items s, ∀ a, I a → ∃ b, step a x = .ok b ∧ I b ∧ R a b) :
    StepsUp items step R start := by
  have taken {s : σ} (inv : I s) {front : List α} (among : ∀ x ∈ front, x ∈ items s) :
      ∃ a, front.foldlM step s = .ok a ∧ I a := by
    refine exists_foldlM_eq_ok (fun x inside a holds => ?_) inv
    obtain ⟨b, done, holds', -⟩ := each s inv x (among x inside) a holds
    exact ⟨b, done, holds'⟩
  intro s reached
  have inv' : I s := by
    induction reached with
    | refl => exact inv
    | tail _ done before =>
        obtain ⟨a, swept, holds⟩ := taken before fun _ inside => inside
        obtain rfl := Except.ok.inj (done.symm.trans swept)
        exact holds
  intro front x back split
  have among : ∀ y ∈ front, y ∈ items s := fun y here => split ▸ List.mem_append_left _ here
  have inside : x ∈ items s := split ▸ List.mem_append_right front List.mem_cons_self
  obtain ⟨a, made, holds⟩ := taken inv' among
  obtain ⟨b, done, -, up⟩ := each s inv' x inside a holds
  exact ⟨a, b, made, done, up⟩

end Steps

namespace Grammar

variable {g h : Grammar} {P Q : Symbol → Symbol → Prop}

theorem FirstState.stepsUp (known : g.BodiesKnown) (allowed : g.FirstAllowed P)
    (state : g.FirstState P h) : StepsUp names refreshFirst FirstGrows h := by
  refine stepsUp_of_invariant (I := g.FirstState P) state fun s inv name named a inv' => ?_
  rw [inv.names] at named
  obtain ⟨b, done, inv'', grows, -⟩ := inv'.refresh known allowed named
  exact ⟨b, done, inv'', grows⟩

theorem FollowState.stepsUp (known : g.ProductionsKnown) (allowed : g.FollowAllowed Q)
    (state : g.FollowState Q h) : StepsUp allProductions followProduction FollowGrows h := by
  refine stepsUp_of_invariant (I := g.FollowState Q) state fun s inv production listed a inv' => ?_
  rw [inv.allProductions] at listed
  have whole : (production.1, [] ++ production.2) ∈ g.allProductions := listed
  obtain ⟨b, done, inv'', grows, -⟩ := inv'.body known allowed whole
  exact ⟨b, done, inv'', grows⟩

theorem FirstState.follow_settles {mid : Grammar} (known : g.ProductionsKnown)
    (state : g.resetFirstFollow.FirstState (fun _ t => t ∈ g.firstMarks) mid) :
    ∃ last n, Settles followPass n (mid.extendFollow mid.start {endMark}) last ∧
      n ≤ mid.passBound ∧
      StepsUp allProductions followProduction FollowGrows (mid.extendFollow mid.start {endMark}) := by
  have rules : g.SameRules mid := (sameRules_resetFirstFollow g).trans state.toSameRules
  obtain ⟨ended, follows⟩ := known.followAllowed
  have begun : mid.FollowState (fun _ t => t ∈ g.followMarks)
      (mid.extendFollow mid.start {endMark}) := by
    refine followState_extendFollow (fun name => ?_) ended
    rw [state.follow, storedFollow_resetFirstFollow]
  have known' := rules.productionsKnown known
  have allowed := follows mid rules state.allowed
  have marks : ∀ t ∈ g.followMarks, t ∈ mid.followMarks := by
    intro t inside
    rwa [followMarks, rules.terminals]
  obtain ⟨n, last, settles, few, -⟩ := begun.exists_settles known' allowed fun _ => marks
  exact ⟨last, n, settles, few, begun.stepsUp known' allowed⟩

/-- The loops over the stored sets of a grammar whose bodies hold nothing but its symbols and `&`,
whatever it stores and whatever its start symbol is. The loop over the FIRST sets ends with a pass that
changes nothing, after no more than `N * (T + 1) + 1` passes for `N` non-terminals and `T` terminals,
and every step within a pass overwrites a FIRST set by a superset of it. If the heads of the
productions are non-terminals too, the whole computation answers: the loop over the FOLLOW sets ends in
the same way, and a step over a body takes nothing from a FOLLOW set. -/
theorem computeFirstFollow_settles (known : g.BodiesKnown) :
    ∃ mid m, g.resetFirstFollow.computeFirst = .ok mid ∧
      Settles (sweep names refreshFirst) m g.resetFirstFollow mid ∧
      m ≤ g.names.length * (g.terminals.size + 1) + 1 ∧
      StepsUp names refreshFirst FirstGrows g.resetFirstFollow ∧
      ((∀ head b, (head, b) ∈ g.allProductions → head ∈ g.names) → ∃ last n,
        g.computeFirstFollow = .ok { last with firstFollowValid := true } ∧
        Settles (sweep allProductions followProduction) n (mid.extendFollow mid.start {endMark})
          last ∧
        n ≤ g.names.length * (g.terminals.size + 1) + 1 ∧
        StepsUp allProductions followProduction FollowGrows
          (mid.extendFollow mid.start {endMark})) := by
  have reset := sameRules_resetFirstFollow g
  have opened : g.resetFirstFollow.FirstState (fun _ t => t ∈ g.firstMarks) g.resetFirstFollow :=
    firstState_resetFirstFollow g
  have known' := reset.bodiesKnown known
  have allowed := reset.firstAllowed known.firstAllowed
  obtain ⟨m, mid, settles, few, state⟩ :=
    opened.exists_settles known' allowed fun _ _ inside => inside
  have first : g.resetFirstFollow.computeFirst = .ok mid := settles.untilStable_eq few
  have rules : g.SameRules mid := reset.trans state.toSameRules
  refine ⟨mid, m, first, settles, Nat.le_trans few (Nat.le_of_eq reset.passBound),
    opened.stepsUp known' allowed, ?_⟩
  intro heads
  obtain ⟨last, n, settles', few', up⟩ := state.follow_settles ⟨heads, known⟩
  have follow : mid.computeFollow = .ok last := settles'.untilStable_eq few'
  refine ⟨last, n, ?_, settles', Nat.le_trans few' (Nat.le_of_eq rules.passBound), up⟩
  rw [computeFirstFollow, first]
  show (mid.computeFollow >>= _) = _
  exact bind_eq_ok_iff.2 ⟨last, follow, rfl⟩

instance (g : Grammar) (u : List Symbol) : Decidable (g.Known u) :=
  inferInstanceAs (Decidable (∀ s ∈ u, s = epsilon ∨ s ∈ g.allSymbols))

theorem bodiesKnown_iff : g.BodiesKnown ↔ ∀ production ∈ g.allProductions, g.Known production.2 := by
  constructor
  · rintro known ⟨head, b⟩ listed
    obtain ⟨key, -, inside⟩ := mem_allProductions_iff.1 listed
    exact known key b inside
  · intro known name b inside
    exact known (g.entryName name, b) (mem_allProductions_iff.2 ⟨name, rfl, inside⟩)

/-- A state with garbage for its sets, a cycle, left recursion, an empty body, `&` inside a body and
a start symbol that is no non-terminal. -/
def loopingGrammar : Grammar where
  start := "Z"
  nonTerminals :=
    .insert (.insert ∅
      "A" ⟨"A", .ofList [["A", "a"], ["B", epsilon, "A", "b"], []], .ofList ["b", "$"],
        .ofList ["&"], false⟩)
      "B" ⟨"B", .ofList [["A"], [epsilon], ["B", "a"]], ∅, .ofList ["B"], true⟩
  terminals := .ofList ["a", "b"]
  firstFollowValid := true

theorem loopingGrammar_settles :
    loopingGrammar.BodiesKnown ∧ ∃ mid last m n,
      loopingGrammar.computeFirstFollow = .ok { last with firstFollowValid := true } ∧
      Settles (sweep names refreshFirst) m loopingGrammar.resetFirstFollow mid ∧
      m ≤ 2 * (2 + 1) + 1 ∧
      StepsUp names refreshFirst FirstGrows loopingGrammar.resetFirstFollow ∧
      Settles (sweep allProductions followProduction) n (mid.extendFollow mid.start {endMark})
        last ∧
      n ≤ 2 * (2 + 1) + 1 := by
  have known : loopingGrammar.BodiesKnown := bodiesKnown_iff.2 (by decide)
  have heads : ∀ production ∈ loopingGrammar.allProductions, production.1 ∈ loopingGrammar.names := by
    decide
  obtain ⟨mid, m, -, settles, few, up, onward⟩ := computeFirstFollow_settles known
  obtain ⟨last, n, answered, settles', few', -⟩ := onward fun head b listed => heads (head, b) listed
  exact ⟨known, mid, last, m, n, answered, settles, few, up, settles', few'⟩

/-- A grammar as it is read, but for the entry of `S`, which was given the name `X`. -/
def renamedGrammar : Grammar where
  start := "S"
  nonTerminals :=
    .insert (.insert ∅ "S" (.ofProductions "X" (.ofList [["A"]])))
      "A" (.ofProductions "A" (.ofList [["a"]]))
  terminals := .ofList ["a"]
  firstFollowValid := false

/-- The bodies are known and the FIRST sets settle, but the loop over the FOLLOW sets asks for the
entry of `X`, which is no key. -/
theorem renamedGrammar_fails :
    (∃ g, Grammar.parse "S -> A\nA -> a" = .ok g ∧ renamedGrammar = { g with
      nonTerminals := g.nonTerminals.modify "S" fun entry => { entry with name := "X" } }) ∧
    renamedGrammar.BodiesKnown ∧ renamedGrammar.computeFirstFollow = .error .missingEntry :=
  ⟨⟨_, rfl, by decide⟩, bodiesKnown_iff.2 (by decide), by decide⟩

end Grammar

end Predictive
