import Predictive.Proofs.Derivation.Corners
import Predictive.Proofs.Derivation.Opening
import Predictive.Proofs.LeftRecursion.Ascent

set_option autoImplicit false

/-
The fresh non-terminals in layers. A body of a fresh non-terminal is empty, or it ends in that
non-terminal and mentions before it only symbols of lower layers, one of which is a symbol of the
original grammar if that had no cycles. Together with the ascent of the original non-terminals this
excludes left recursion (`not_leftRecursive_eliminateLeftRecursion`).
-/

namespace Predictive

namespace Grammar

variable {g h : Grammar} {head : Symbol} {before : List Symbol} {b : Body} {rank : Symbol → Nat}
  {count : Nat}

/-- What is left of the body when everything that is not in `g` stands for nothing. -/
def skeleton (g : Grammar) (b : Body) : List Symbol :=
  (Body.symbols b).filter fun s => decide (s ∈ g.allSymbols)

theorem skeleton_join (front back : Body) :
    g.skeleton (Body.join front back) = g.skeleton front ++ g.skeleton back := by
  rw [skeleton, Body.symbols_join, List.filter_append]
  rfl

theorem skeleton_cons {s : Symbol} (clean : s ≠ epsilon) (known : s ∈ g.allSymbols) (rest : Body) :
    g.skeleton (s :: rest) = s :: g.skeleton rest := by
  rw [skeleton, symbols_cons clean, List.filter_cons_of_pos (by simpa using known)]
  rfl

theorem skeleton_eq_symbols (known : ∀ s ∈ Body.symbols b, s ∈ g.allSymbols) :
    g.skeleton b = Body.symbols b :=
  List.filter_eq_self.2 fun s inside => by simpa using known s inside

/-- What has become of `g`, with a layer for every symbol. -/
structure Layered (g h : Grammar) (rank : Symbol → Nat) (count : Nat) : Prop where
  original : ∀ s ∈ g.allSymbols, rank s = 0
  bounded : ∀ s ∈ h.allSymbols, rank s ≤ count
  outline : ∀ name ∈ g.names, ∀ b ∈ h.bodies name, g.Yields name (g.skeleton b)
  loop : ∀ name ∈ h.names, name ∉ g.names → ∀ b ∈ h.bodies name, Body.symbols b = [] ∨
    ∃ front, Body.symbols b = front ++ [name] ∧ (∃ s ∈ front, s ∈ g.allSymbols) ∧
      ∀ s ∈ front, rank s < rank name

theorem layered_self (valid : g.WellFormed) : g.Layered g (fun _ => 0) 0 where
  original _ _ := rfl
  bounded _ _ := Nat.le_refl 0
  outline name _ b inside := by
    rw [skeleton_eq_symbols (valid.fits name b inside).2]
    exact ⟨b, inside, Derives.refl g _⟩
  loop _ named new := absurd named new

theorem Turn.layered_expandVisited (turn : g.Turn h before head) (valid : g.WellFormed)
    (layered : g.Layered h rank count) :
    g.Layered (h.expandVisited before head) rank count where
  original := layered.original
  bounded s inside := by
    have terminals := turn.preserves_expandVisited.terminals
    rw [mem_allSymbols, names_expandVisited, terminals, ← mem_allSymbols] at inside
    exact layered.bounded s inside
  outline name named := by
    by_cases same : name = head
    · subst same
      apply mem_bodies_expandVisited (P := fun _ b => g.Yields name (g.skeleton b)) turn.known
        turn.apart (layered.outline name named)
      · intro _ _ b _ yields _
        exact yields
      · intro done earlier rest begins yields p inside
        have original : earlier ∈ g.names := by
          apply turn.original_of_mem
          exact begins.subset (List.mem_append_right done List.mem_cons_self)
        have clean := valid.ne_epsilon original
        rw [skeleton_cons clean (mem_allSymbols.2 (.inl original))] at yields
        have expanded := (layered.outline earlier original p inside).derives
        rw [skeleton_join]
        exact yields.trans (expanded.append (Derives.refl g (g.skeleton rest)))
    · rw [bodies_expandVisited_of_ne turn.known same]
      exact layered.outline name named
  loop name named new := by
    rw [names_expandVisited] at named
    have other : name ≠ head := by
      rintro rfl
      exact new turn.original
    rw [bodies_expandVisited_of_ne turn.known other]
    exact layered.loop name named new

theorem Layered.trims {h' : Grammar} (layered : g.Layered h rank count) (trims : h.Trims h' head) :
    g.Layered h' rank count := by
  refine ⟨layered.original, fun s inside => ?_, fun name named b inside => ?_,
    fun name named new b inside => ?_⟩
  · rw [mem_allSymbols, trims.names, trims.terminals, ← mem_allSymbols] at inside
    exact layered.bounded s inside
  · exact layered.outline name named b (trims.mem_bodies inside)
  · rw [trims.names] at named
    exact layered.loop name named new b (trims.mem_bodies inside)

section Loop

variable {h' : Grammar} {fresh : Symbol}

theorem Loops.skeleton_join_fresh (loops : h.Loops h' head fresh) (new : fresh ∉ g.allSymbols)
    (c : Body) : g.skeleton (Body.join c [fresh]) = g.skeleton c := by
  rw [skeleton, loops.symbols_join_fresh, List.filter_append, List.filter_cons_of_neg (by simpa)]
  simp [skeleton]

theorem Layered.exists_original_of_tail (layered : g.Layered h rank count) (valid : g.WellFormed)
    (original : head ∈ g.names) (acyclic : ∀ name, ¬ g.Cyclic name) {tail : Body}
    (inside : head :: tail ∈ h.bodies head) : ∃ s ∈ Body.symbols tail, s ∈ g.allSymbols := by
  have yields := layered.outline head original _ inside
  rw [skeleton_cons (valid.ne_epsilon original) (mem_allSymbols.2 (.inl original))] at yields
  have some : g.skeleton tail ≠ [] := fun none => acyclic head (by rwa [none] at yields)
  obtain ⟨s, among⟩ := List.exists_mem_of_ne_nil _ some
  rw [skeleton, List.mem_filter, decide_eq_true_eq] at among
  exact ⟨s, among⟩

/-- The fresh non-terminal of a loop makes a new layer on top. -/
theorem Layered.loops (layered : g.Layered h rank count) (rewrites : g.Rewrites h)
    (valid : g.WellFormed) (original : head ∈ g.names) (acyclic : ∀ name, ¬ g.Cyclic name)
    (loops : h.Loops h' head fresh) :
    g.Layered h' (fun s => if s = fresh then count + 1 else rank s) (count + 1) := by
  have old : ∀ s ∈ g.allSymbols, s ∈ h.allSymbols := fun _ known => rewrites.mem_allSymbols known
  have apart : ∀ s ∈ h.allSymbols, s ≠ fresh := fun _ => loops.ne_fresh_of_mem
  have fits := rewrites.wellFormed.fits
  constructor
  case original =>
    intro s known
    rw [if_neg (apart s (old s known))]
    exact layered.original s known
  case bounded =>
    intro s known
    split
    · exact Nat.le_refl _
    · rename_i other
      have := layered.bounded s ((loops.mem_allSymbols_iff.1 known).resolve_left other)
      omega
  case outline =>
    intro name named b inside
    by_cases same : name = head
    · subst same
      obtain ⟨c, direct, rfl⟩ := (loops.direct b).1 inside
      rw [loops.skeleton_join_fresh fun known => apart fresh (old fresh known) rfl]
      exact layered.outline name named c (mem_directBodies.1 direct).1
    · have other := apart name (old name (mem_allSymbols.2 (.inl named)))
      rw [loops.bodies name same other] at inside
      exact layered.outline name named b inside
  case loop =>
    intro name named hidden b inside
    by_cases same : name = fresh
    · subst same
      rcases (loops.loop b).1 inside with rfl | ⟨tail, within, rfl⟩
      · exact .inl (by simp [Body.symbols])
      · have whole := (mem_recursiveTails.1 within).2
        refine .inr ⟨Body.symbols tail, loops.symbols_join_fresh tail,
          layered.exists_original_of_tail valid original acyclic whole, fun s among => ?_⟩
        have known : s ∈ h.allSymbols := by
          apply (fits head _ whole).2
          rw [symbols_cons (valid.ne_epsilon original)]
          exact List.mem_cons_of_mem head among
        -- whatever was there before is below the new layer
        have low := layered.bounded s known
        rw [if_neg (apart s known), if_pos rfl]
        omega
    · have named' := ((loops.names name).1 named).resolve_left same
      have other : name ≠ head := by
        rintro rfl
        exact hidden original
      rw [loops.bodies name other same] at inside
      rcases layered.loop name named' hidden b inside with empty | ⟨front, split, some, low⟩
      · exact .inl empty
      · refine .inr ⟨front, split, some, fun s among => ?_⟩
        have known : s ∈ h.allSymbols := by
          apply (fits name b inside).2
          rw [split]
          exact List.mem_append_left _ among
        rw [if_neg (apart s known), if_neg same]
        exact low s among

end Loop

theorem exists_layered (valid : g.WellFormed) (acyclic : ∀ name, ¬ g.Cyclic name) :
    ∃ rank count, g.Layered g.eliminateLeftRecursion rank count := by
  refine (eliminateLeftRecursion_induction (g := g)
    (I := fun _ h => ∃ rank count, g.Layered h rank count) valid ⟨_, _, layered_self valid⟩
    fun before head h turn inv => ?_).2
  obtain ⟨rank, count, layered⟩ := inv
  have expanded := turn.preserves_expandVisited
  have layered := turn.layered_expandVisited valid layered
  rcases removeImmediate_cases expanded.wellFormed (expanded.names head turn.known) with
    ⟨-, same⟩ | trims | ⟨fresh, -, -, loops⟩
  · rw [visit, same]
    exact ⟨rank, count, layered⟩
  · exact ⟨rank, count, layered.trims trims⟩
  · have rewrites := turn.preserved.toRewrites.trans expanded.toRewrites
    exact ⟨_, _, layered.loops rewrites valid turn.original acyclic loops⟩

theorem EpsilonFree.not_derives_nil (free : g.EpsilonFree) (valid : g.WellFormed)
    (preserved : g.Preserves h) {s : Symbol} (known : s ∈ g.allSymbols) : ¬ h.Derives [s] [] := by
  intro empty
  rcases mem_allSymbols.1 known with named | terminal
  · have full : ∀ name, ∀ b ∈ g.bodies name, Body.symbols b ≠ [] := by
      intro name b inside
      obtain ⟨some, same⟩ := free.symbols_eq valid inside
      rwa [same]
    have empty' := (preserved.language s named [] (by simp [TerminalString])).2 empty
    have := eq_nil_of_derives_nil full empty' rfl
    contradiction
  · rw [← preserved.terminals] at terminal
    rcases derives_singleton_iff.1 empty with same | ⟨b, inside, -⟩
    · contradiction
    · exact preserved.wellFormed.not_terminal terminal (mem_names_of_mem_bodies inside)

/-- One goes down the layers, and up in the order of the names within a layer. -/
def Descends (rank : Symbol → Nat) (x y : Symbol) : Prop :=
  rank y < rank x ∨ rank x = rank y ∧ x < y

theorem Descends.trans {x y z : Symbol} (first : Descends rank x y) (second : Descends rank y z) :
    Descends rank x z := by
  rcases first with lower | ⟨same, less⟩ <;> rcases second with lower' | ⟨same', less'⟩
  · exact .inl (by omega)
  · exact .inl (by omega)
  · exact .inl (by omega)
  · exact .inr ⟨by omega, String.lt_trans less less'⟩

theorem Descends.irrefl (x : Symbol) : ¬ Descends rank x x := by
  rintro (lower | ⟨-, less⟩)
  · exact Nat.lt_irrefl _ lower
  · exact String.lt_irrefl x less

section Descent

variable {front back : List Symbol} {s : Symbol}

theorem Layered.descends_original (layered : g.Layered h rank count) (valid : g.WellFormed)
    (preserved : g.Preserves h)
    (solid : ∀ u s, s ∈ u → s ∈ g.allSymbols → ¬ h.Derives u []) (original : head ∈ g.names)
    (led : g.LedBy (head < ·) b) (split : Body.symbols b = front ++ s :: back)
    (empty : h.Derives front []) (named : s ∈ h.names) : Descends rank head s := by
  obtain ⟨first, rest, rfl, kind⟩ := led
  have known : first ∈ g.allSymbols := mem_allSymbols.2 (kind.symm.imp_left And.left)
  rw [symbols_cons (valid.ne_epsilon_of_mem known)] at split
  cases front with
  | cons _ front =>
      obtain ⟨rfl, -⟩ := List.cons.inj split
      exact absurd empty (solid _ first List.mem_cons_self known)
  | nil =>
      obtain ⟨rfl, -⟩ := List.cons.inj split
      have nonTerminal : first ∉ g.terminals := by
        rw [← preserved.terminals]
        exact preserved.wellFormed.disjoint first named
      obtain ⟨-, above⟩ := kind.resolve_left nonTerminal
      refine .inr ⟨?_, above⟩
      rw [layered.original head (mem_allSymbols.2 (.inl original)), layered.original first known]

theorem Layered.descends_fresh (layered : g.Layered h rank count)
    (solid : ∀ u s, s ∈ u → s ∈ g.allSymbols → ¬ h.Derives u []) (new : head ∉ g.names)
    (inside : b ∈ h.bodies head) (split : Body.symbols b = front ++ s :: back)
    (empty : h.Derives front []) : Descends rank head s := by
  have named := mem_names_of_mem_bodies inside
  rcases layered.loop head named new b inside with none | ⟨tail, loop, some, low⟩
  · simp [none] at split
  · obtain ⟨known, among, basic⟩ := some
    rw [split] at loop
    rcases List.append_eq_append_iff.1 loop with ⟨more, rfl, last⟩ | ⟨more, rfl, -⟩
    · cases more with
      | nil =>
          rw [List.append_nil] at among
          exact absurd empty (solid _ known among basic)
      | cons first more =>
          obtain ⟨rfl, -⟩ := List.cons.inj last
          exact .inl (low s (by simp))
    · exact absurd empty (solid _ known (List.mem_append_left _ among) basic)

end Descent

/-- A grammar without empty productions, unproductive non-terminals and cycles loses all its left
recursion. -/
theorem not_leftRecursive_eliminateLeftRecursion (valid : g.WellFormed) (free : g.EpsilonFree)
    (productive : g.Productive) (acyclic : ∀ name, ¬ g.Cyclic name) (name : Symbol) :
    ¬ g.eliminateLeftRecursion.LeftRecursive name := by
  have preserved := preserves_eliminateLeftRecursion valid
  have ascent := ledBy_eliminateLeftRecursion valid free productive
  obtain ⟨rank, count, layered⟩ := exists_layered valid acyclic
  generalize g.eliminateLeftRecursion = e at preserved ascent layered ⊢
  have solid : ∀ u s, s ∈ u → s ∈ g.allSymbols → ¬ e.Derives u [] := by
    intro u s among known empty
    exact free.not_derives_nil valid preserved known (derives_nil_iff_forall.1 empty s among)
  apply not_leftRecursive (R := Descends rank) (fun _ _ _ => Descends.trans) ?corner Descends.irrefl
  intro head b inside front s back split empty named
  by_cases original : head ∈ g.names
  · exact layered.descends_original valid preserved solid original (ascent head original b inside)
      split empty named
  · exact layered.descends_fresh solid original inside split empty

end Grammar

end Predictive
