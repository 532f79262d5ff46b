import Predictive.Grammar.Factoring
import Predictive.Proofs.Body.CommonPrefix
import Predictive.Proofs.Derivation.Introduction

set_option autoImplicit false

namespace Predictive

theorem mem_foldl_erase {bodies : OrderedSet Body} {l : List Body} {b : Body} :
    b ∈ l.foldl OrderedSet.erase bodies ↔ b ∈ bodies ∧ b ∉ l := by
  induction l generalizing bodies with
  | nil => simp
  | cons c l ih =>
      rw [List.foldl_cons, ih, OrderedSet.mem_erase, List.mem_cons, not_or, and_assoc]

namespace Grammar

variable {g g' : Grammar} {head fresh : Symbol}

theorem mem_candidates {b : Body} :
    b ∈ g.candidates head ↔ b ∈ g.bodies head ∧ b ≠ [epsilon] := by
  simp [candidates, Body.isEpsilon, OrderedSet.mem_toList]

theorem mem_factoredBodies {b : Body} :
    b ∈ g.factoredBodies head ↔ b ∈ g.candidates head ∧ ∀ s ∈ g.sharedPrefix head, s ∈ b := by
  simp [factoredBodies]

theorem mem_factoredBodies_of_isPrefix {b : Body} (inside : b ∈ g.candidates head)
    (begins : g.sharedPrefix head <+: b) : b ∈ g.factoredBodies head :=
  mem_factoredBodies.2 ⟨inside, fun _ among => begins.subset among⟩

theorem exists_pair_factored (shared : g.sharedPrefix head ≠ []) :
    ∃ b c, [b, c].Sublist (g.candidates head) ∧ g.sharedPrefix head = commonPrefix b c := by
  rcases longestCommonPrefix_eq (g.candidates head) with nothing | found
  · exact absurd nothing shared
  · exact found

theorem exists_factored (shared : g.sharedPrefix head ≠ []) :
    ∃ b ∈ g.factoredBodies head, g.sharedPrefix head <+: b := by
  obtain ⟨b, c, pair, same⟩ := exists_pair_factored shared
  have begins : g.sharedPrefix head <+: b := same ▸ commonPrefix_isPrefix_left b c
  have inside : b ∈ g.candidates head := pair.subset List.mem_cons_self
  exact ⟨b, mem_factoredBodies_of_isPrefix inside begins, begins⟩

/-- Whether every body of `head` that is factored begins with the shared prefix. -/
def FactorsByPrefix (g : Grammar) (head : Symbol) : Prop :=
  ∀ b ∈ g.factoredBodies head, g.sharedPrefix head <+: b

instance (g : Grammar) (head : Symbol) : Decidable (g.FactorsByPrefix head) :=
  inferInstanceAs (Decidable (∀ b ∈ g.factoredBodies head, g.sharedPrefix head <+: b))

/-- `g'` is the grammar in which the bodies of `head` are factored. -/
structure Factors (g g' : Grammar) (head fresh : Symbol) : Prop extends
    g.Introduces g' head fresh where
  shared : g.sharedPrefix head ≠ []
  kept : ∀ b, b ∈ g'.bodies head ↔
    b = Body.join (g.sharedPrefix head) [fresh] ∨ b ∈ g.bodies head ∧ b ∉ g.factoredBodies head
  rest : ∀ b, b ∈ g'.bodies fresh ↔
    ∃ c ∈ g.factoredBodies head, b = Body.normalize (c.drop (g.sharedPrefix head).length)

theorem factors_factorInto (valid : g.WellFormed) (known : head ∈ g.names)
    (shared : g.sharedPrefix head ≠ []) :
    g.Factors (g.factorInto head (g.freshName head)) head (g.freshName head) where
  toIntroduces := introduces_freshName known _ _
  shared := shared
  kept b := by
    have introduces := introduces_freshName known ∅ ∅
    have made : Body.join (g.sharedPrefix head) [g.freshName head] ∉ g.factoredBodies head := by
      intro inside
      apply introduces.not_mem_symbols valid (mem_candidates.1 (mem_factoredBodies.1 inside).1).1
      rw [introduces.symbols_join_fresh]
      exact List.mem_append_right _ List.mem_cons_self
    rw [factorInto, bodies_setBodies_addNonTerminal known, if_neg introduces.apart, if_pos rfl,
      mem_foldl_erase, OrderedSet.mem_insert]
    constructor
    · intro found
      rcases found with ⟨same | old, remains⟩
      · exact .inl same
      · exact .inr ⟨old, remains⟩
    · intro found
      rcases found with rfl | ⟨old, remains⟩
      · exact ⟨.inl rfl, made⟩
      · exact ⟨.inr old, remains⟩
  rest b := by
    rw [factorInto, bodies_setBodies_addNonTerminal known, if_pos rfl, OrderedSet.mem_ofList,
      List.mem_map]
    simp only [eq_comm]

theorem symbols_eq_of_begins {shared b : Body} (begins : shared <+: b) :
    Body.symbols b =
      Body.symbols shared ++ Body.symbols (Body.normalize (b.drop shared.length)) := by
  obtain ⟨rest, rfl⟩ := begins
  rw [Body.symbols_append, List.drop_left, Body.symbols_normalize]

namespace Factors

theorem rewrites (factors : g.Factors g' head fresh) (valid : g.WellFormed) : g.Rewrites g' := by
  obtain ⟨whole, factored, begins⟩ := exists_factored factors.shared
  have known {c : Body} (inside : c ∈ g.factoredBodies head) :
      ∀ s ∈ Body.symbols c, s ∈ g.allSymbols :=
    (valid.fits head c (mem_candidates.1 (mem_factoredBodies.1 inside).1).1).2
  refine factors.toIntroduces.rewrites valid
    ⟨⟨_, (factors.kept _).2 (.inl rfl)⟩, _, (factors.rest _).2 ⟨whole, factored, rfl⟩⟩ ?_ ?_
  · intro b inside
    rcases (factors.kept b).1 inside with rfl | ⟨old, -⟩
    · refine factors.fits_join_fresh fun s within => known factored s ?_
      rw [symbols_eq_of_begins begins]
      exact List.mem_append_left _ within
    · obtain ⟨normal, symbols⟩ := valid.fits head b old
      exact ⟨normal, fun s within => factors.mem_allSymbols_iff.2 (.inr (symbols s within))⟩
  · intro b inside
    obtain ⟨c, among, rfl⟩ := (factors.rest b).1 inside
    refine fits_normalize fun s within => factors.mem_allSymbols_iff.2 (.inr (known among s ?_))
    obtain ⟨dropped, other⟩ := Body.mem_symbols.1 within
    exact Body.mem_symbols.2 ⟨List.mem_of_mem_drop dropped, other⟩

theorem derives_of_derives (factors : g.Factors g' head fresh) (begin : g.FactorsByPrefix head)
    {name : Symbol} {w : List Symbol} (terminal : g.TerminalString w)
    (derived : g.Derives [name] w) : g'.Derives [name] w := by
  refine derives_of_respects (fun s b inside v _ body => ?_) derived terminal
  have notFresh := factors.ne_fresh inside
  by_cases same : s = head
  · subst same
    by_cases factored : b ∈ g.factoredBodies s
    · rw [symbols_eq_of_begins (begin b factored)] at body
      obtain ⟨front, back, rfl, left, right⟩ := derives_append_iff.1 body
      have rest := derives_of_mem_bodies ((factors.rest _).2 ⟨b, factored, rfl⟩) right
      refine derives_of_mem_bodies ((factors.kept _).2 (.inl rfl)) ?_
      rw [factors.symbols_join_fresh]
      exact left.append rest
    · exact derives_of_mem_bodies ((factors.kept _).2 (.inr ⟨inside, factored⟩)) body
  · refine derives_of_mem_bodies ?_ body
    rwa [factors.bodies s same notFresh]

/-- Factoring keeps the languages if every factored body begins with the prefix. In the grammar
before it the fresh non-terminal stands for what is behind the prefix in some factored body. -/
theorem preserves (factors : g.Factors g' head fresh) (valid : g.WellFormed)
    (begin : g.FactorsByPrefix head) : g.Preserves g' where
  toRewrites := factors.rewrites valid
  language name named w terminal := by
    refine ⟨factors.derives_of_derives begin terminal, fun derived => ?_⟩
    refine factors.toIntroduces.derives_of_derives
      (X := fun v => ∃ c ∈ g.factoredBodies head,
        g.Derives (Body.symbols (Body.normalize (c.drop (g.sharedPrefix head).length))) v) valid
      (fun b inside v read => ?_) (fun b inside v read => ?_) named derived
      ((factors.rewrites valid).terminalString_iff.2 terminal)
    · have old {c : Body} (among : c ∈ g.factoredBodies head) : c ∈ g.bodies head :=
        (mem_candidates.1 (mem_factoredBodies.1 among).1).1
      rcases (factors.kept b).1 inside with rfl | ⟨plain, -⟩
      · rw [factors.symbols_join_fresh, reads_append] at read
        obtain ⟨front, back, rfl, left, right⟩ := read
        obtain ⟨c, among, rest⟩ := standing_fresh.1 (reads_singleton.1 right)
        have symbols := symbols_eq_of_begins (begin c among)
        have without := factors.not_mem_symbols valid (old among)
        rw [symbols, List.mem_append, not_or] at without
        refine derives_of_mem_bodies (old among) ?_
        rw [symbols]
        exact (derives_of_reads_standing without.1 left).append rest
      · have without := factors.not_mem_symbols valid plain
        exact derives_of_mem_bodies plain (derives_of_reads_standing without read)
    · obtain ⟨c, among, rfl⟩ := (factors.rest b).1 inside
      have whole := (mem_candidates.1 (mem_factoredBodies.1 among).1).1
      have without := factors.not_mem_symbols valid whole
      rw [symbols_eq_of_begins (begin c among), List.mem_append, not_or] at without
      exact ⟨c, among, derives_of_reads_standing without.2 read⟩

end Factors

theorem rewrites_factor (valid : g.WellFormed) (known : head ∈ g.names) :
    g.Rewrites (g.factor head) := by
  unfold factor
  split
  case isTrue => exact .refl valid
  case isFalse shared =>
    refine (factors_factorInto valid known ?_).rewrites valid
    simpa only [List.isEmpty_iff] using shared

theorem preserves_factor (valid : g.WellFormed) (known : head ∈ g.names)
    (begin : g.FactorsByPrefix head) : g.Preserves (g.factor head) := by
  unfold factor
  split
  case isTrue => exact .refl valid
  case isFalse shared =>
    refine (factors_factorInto valid known ?_).preserves valid begin
    simpa only [List.isEmpty_iff] using shared

end Grammar

end Predictive
