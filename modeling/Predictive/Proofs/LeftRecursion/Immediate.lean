import Predictive.Proofs.Derivation.Introduction
import Predictive.Proofs.Grammar.Replacement

set_option autoImplicit false

namespace Predictive

namespace Grammar

variable {g : Grammar} {head fresh : Symbol}

theorem mem_bodiesStarting {first : Symbol} {b : Body} :
    b ∈ g.bodiesStarting head first ↔ b ∈ g.bodies head ∧ ∃ rest, b = first :: rest := by
  rw [bodiesStarting, List.mem_filter, OrderedSet.mem_toList, Body.startsWith_iff]

theorem mem_directBodies {b : Body} :
    b ∈ g.directBodies head ↔ b ∈ g.bodies head ∧ ¬ ∃ rest, b = head :: rest := by
  rw [directBodies, OrderedSet.mem_filter, Bool.not_eq_true', ← Body.startsWith_iff,
    Bool.not_eq_true]

theorem exists_mem_directBodies (some : (g.directBodies head).isEmpty = false) :
    ∃ b, b ∈ g.directBodies head := by
  apply List.exists_mem_of_ne_nil (g.directBodies head).toList
  intro none
  simp [OrderedSet.isEmpty, none] at some

theorem mem_recursiveTails {tail : Body} :
    tail ∈ g.recursiveTails head ↔ tail ≠ [] ∧ head :: tail ∈ g.bodies head := by
  simp only [recursiveTails, List.mem_map, List.mem_filter, mem_bodiesStarting, decide_eq_true_eq]
  constructor
  · intro found
    rcases found with ⟨b, ⟨⟨inside, rest, rfl⟩, long⟩, rfl⟩
    refine ⟨?_, inside⟩
    intro same
    subst same
    simp at long
  · intro found
    rcases found with ⟨some, inside⟩
    refine ⟨head :: tail, ⟨⟨inside, tail, rfl⟩, ?_⟩, rfl⟩
    have := List.length_pos_of_ne_nil some
    simpa using this

theorem body_cases {b : Body} (inside : b ∈ g.bodies head) :
    b ∈ g.directBodies head ∨ b = [head] ∨ ∃ tail ∈ g.recursiveTails head, b = head :: tail := by
  by_cases recursive : ∃ rest, b = head :: rest
  · obtain ⟨rest, rfl⟩ := recursive
    by_cases alone : rest = []
    · exact .inr (.inl (by rw [alone]))
    · exact .inr (.inr ⟨rest, mem_recursiveTails.2 ⟨alone, inside⟩, rfl⟩)
  · exact .inl (mem_directBodies.2 ⟨inside, recursive⟩)

theorem symbols_cons {s : Symbol} (other : s ≠ epsilon) (rest : Body) :
    Body.symbols (s :: rest) = s :: Body.symbols rest := by
  simp [Body.symbols, other]

theorem preserves_setBodies_directBodies (valid : g.WellFormed) (known : head ∈ g.names)
    (some : (g.directBodies head).isEmpty = false) (none : (g.recursiveTails head).isEmpty = true) :
    g.Preserves (g.setBodies head (g.directBodies head)) := by
  have rewrites : g.Rewrites (g.setBodies head (g.directBodies head)) :=
    { wellFormed := by
        apply valid.setBodies known (exists_mem_directBodies some)
        intro b inside
        exact valid.fits head b (mem_directBodies.1 inside).1
      start := rfl
      terminals := rfl
      names := fun name named => by rwa [names_setBodies]
      stale := .inr rfl }
  refine .of_respects rewrites (fun name b inside w _ body => ?forth)
    (fun name b inside w _ body => ?back)
  case forth =>
    by_cases same : name = head
    · subst same
      rcases body_cases inside with direct | rfl | ⟨tail, within, -⟩
      · refine derives_of_mem_bodies ?_ body
        rwa [bodies_setBodies known, if_pos rfl]
      · rwa [symbols_cons (valid.ne_epsilon known)] at body
      · rw [List.isEmpty_iff.1 none] at within
        simp at within
    · refine derives_of_mem_bodies ?_ body
      rwa [bodies_setBodies known, if_neg same]
  case back =>
    rw [bodies_setBodies known] at inside
    split at inside
    case isTrue same =>
      subst same
      exact derives_of_mem_bodies (mem_directBodies.1 inside).1 body
    case isFalse => exact derives_of_mem_bodies inside body

section Loop

variable {g' : Grammar} {b : Body}

/-- `g'` is the grammar in which the tails of `head` are looped through. -/
structure Loops (g g' : Grammar) (head fresh : Symbol) : Prop extends
    g.Introduces g' head fresh where
  direct : ∀ b, b ∈ g'.bodies head ↔ ∃ c ∈ g.directBodies head, b = Body.join c [fresh]
  loop : ∀ b, b ∈ g'.bodies fresh ↔
    b = [epsilon] ∨ ∃ tail ∈ g.recursiveTails head, b = Body.join tail [fresh]

theorem loops_loopThrough (valid : g.WellFormed) (known : head ∈ g.names) :
    g.Loops (g.loopThrough head (g.freshName head) (g.directBodies head) (g.recursiveTails head))
      head (g.freshName head) where
  toIntroduces := introduces_freshName known _ _
  direct b := by
    have introduces := introduces_freshName known (replaceBodies (g.directBodies head)
      (g.directBodies head).toList fun b => [Body.join b [g.freshName head]]) ∅
    have made : ∀ c, ¬ Body.join c [g.freshName head] ∈ g.directBodies head := by
      intro c inside
      apply introduces.not_mem_symbols valid (mem_directBodies.1 inside).1
      rw [introduces.symbols_join_fresh]
      exact List.mem_append_right _ List.mem_cons_self
    rw [loopThrough, bodies_setBodies_addNonTerminal known, if_neg introduces.apart, if_pos rfl,
      mem_replaceBodies_iff]
    · simp only [List.mem_singleton, OrderedSet.mem_toList]
      constructor
      · intro found
        rcases found with ⟨inside, missing⟩ | added
        · exact absurd inside missing
        · exact added
      · exact .inr
    · intro c _ e added
      rw [List.mem_singleton.1 added]
      exact made c
  loop b := by
    rw [loopThrough, bodies_setBodies_addNonTerminal known, if_pos rfl, OrderedSet.mem_ofList,
      List.mem_cons, List.mem_map]
    simp only [eq_comm]

namespace Loops

theorem rewrites (loops : g.Loops g' head fresh) (valid : g.WellFormed)
    (some : (g.directBodies head).isEmpty = false) : g.Rewrites g' := by
  refine loops.toIntroduces.rewrites valid ⟨?_, _, (loops.loop _).2 (.inl rfl)⟩ ?_ ?_
  · obtain ⟨c, direct⟩ := exists_mem_directBodies some
    exact ⟨_, (loops.direct _).2 ⟨c, direct, rfl⟩⟩
  · intro b inside
    obtain ⟨c, direct, rfl⟩ := (loops.direct b).1 inside
    exact loops.fits_join_fresh (valid.fits head c (mem_directBodies.1 direct).1).2
  · intro b inside
    rcases (loops.loop b).1 inside with rfl | ⟨tail, within, rfl⟩
    · exact fits_normalize (b := [epsilon]) (by simp [Body.symbols])
    · have whole := (valid.fits head _ (mem_recursiveTails.1 within).2).2
      rw [symbols_cons (valid.ne_epsilon loops.known), List.forall_mem_cons] at whole
      exact loops.fits_join_fresh whole.2

theorem derives_nil (loops : g.Loops g' head fresh) : g'.Derives [fresh] [] :=
  derives_of_mem_bodies ((loops.loop _).2 (.inl rfl)) (by simpa [Body.symbols] using Derives.nil)

theorem derives_cons (loops : g.Loops g' head fresh) {tail : Body}
    (within : tail ∈ g.recursiveTails head) {front back : List Symbol}
    (left : g'.Derives (Body.symbols tail) front) (right : g'.Derives [fresh] back) :
    g'.Derives [fresh] (front ++ back) := by
  refine derives_of_mem_bodies ((loops.loop _).2 (.inr ⟨tail, within, rfl⟩)) ?_
  rw [loops.symbols_join_fresh]
  exact left.append right

theorem derives_concat (loops : g.Loops g' head fresh) (valid : g'.WellFormed) {tail : Body}
    (within : tail ∈ g.recursiveTails head) {front back : List Symbol}
    (left : g'.Derives [fresh] front) (terminal : g'.TerminalString front)
    (right : g'.Derives (Body.symbols tail) back) : g'.Derives [fresh] (front ++ back) := by
  -- a terminal string of `fresh` is read as one behind which `back` may be put
  have meaning : g'.Interprets fun s v =>
      g'.Derives [s] v ∧ (s = fresh → g'.Derives [fresh] (v ++ back)) :=
    { self := fun s inside => by
        refine ⟨Derives.refl _ [s], ?_⟩
        intro same
        subst same
        exact absurd inside (valid.disjoint s ((loops.names s).2 (.inl rfl)))
      body := fun name b inside v _ read => by
        have plain := reads_derives_iff.1 (read.imp fun _ _ _ both => both.1)
        refine ⟨derives_of_mem_bodies inside plain, ?_⟩
        intro same
        subst same
        rcases (loops.loop b).1 inside with rfl | ⟨other, among, rfl⟩
        · obtain rfl : v = [] := by simpa [Body.symbols] using read
          have once := loops.derives_cons within right loops.derives_nil
          rwa [List.append_nil] at once
        · rw [loops.symbols_join_fresh, reads_append] at read
          obtain ⟨first, rest, rfl, head, tail⟩ := read
          have first' := reads_derives_iff.1 (head.imp fun _ _ _ both => both.1)
          rw [List.append_assoc]
          exact loops.derives_cons among first' ((reads_singleton.1 tail).2 rfl) }
  exact (reads_singleton.1 (meaning.reads left terminal)).2 rfl

theorem derives_head_concat (loops : g.Loops g' head fresh) (valid : g'.WellFormed) {tail : Body}
    (within : tail ∈ g.recursiveTails head) {front back : List Symbol}
    (left : g'.Derives [head] front) (terminal : g'.TerminalString front)
    (right : g'.Derives (Body.symbols tail) back) : g'.Derives [head] (front ++ back) := by
  have named : head ∈ g'.names := (loops.names head).2 (.inr loops.known)
  obtain ⟨b, inside, derived⟩ := exists_body_of_derives (valid.disjoint head named) left terminal
  obtain ⟨c, direct, rfl⟩ := (loops.direct b).1 inside
  rw [loops.symbols_join_fresh] at derived
  obtain ⟨first, rest, rfl, start, loop⟩ := derives_append_iff.1 derived
  have more := loops.derives_concat valid within loop (terminalString_append.1 terminal).2 right
  refine derives_of_mem_bodies inside ?_
  rw [loops.symbols_join_fresh, List.append_assoc]
  exact start.append more

theorem derives_of_derives (loops : g.Loops g' head fresh) (valid : g.WellFormed)
    (valid' : g'.WellFormed) {name : Symbol} {w : List Symbol} (terminal : g.TerminalString w)
    (derived : g.Derives [name] w) : g'.Derives [name] w := by
  refine derives_of_respects (fun s b inside v inner body => ?_) derived terminal
  have notFresh := loops.ne_fresh inside
  by_cases same : s = head
  · subst same
    rcases body_cases inside with direct | rfl | ⟨tail, within, rfl⟩
    · refine derives_of_mem_bodies ((loops.direct _).2 ⟨b, direct, rfl⟩) ?_
      rw [loops.symbols_join_fresh, ← List.append_nil v]
      exact body.append loops.derives_nil
    · rwa [symbols_cons (valid.ne_epsilon loops.known)] at body
    · rw [symbols_cons (valid.ne_epsilon loops.known), ← List.singleton_append] at body
      obtain ⟨front, back, rfl, left, right⟩ := derives_append_iff.1 body
      have front' : g'.TerminalString front := by
        rw [TerminalString, loops.terminals]
        exact (terminalString_append.1 inner).1
      exact loops.derives_head_concat valid' within left front' right
  · refine derives_of_mem_bodies ?_ body
    rwa [loops.bodies s same notFresh]

/-- Looping through the tails keeps the languages. In the grammar without the loop the fresh
non-terminal stands for all that may be put behind what the head derives. -/
theorem preserves (loops : g.Loops g' head fresh) (valid : g.WellFormed)
    (some : (g.directBodies head).isEmpty = false) : g.Preserves g' where
  toRewrites := loops.rewrites valid some
  language name named w terminal := by
    have rewrites := loops.rewrites valid some
    refine ⟨loops.derives_of_derives valid rewrites.wellFormed terminal, fun derived => ?_⟩
    refine loops.toIntroduces.derives_of_derives
      (X := fun v => ∀ u, g.Derives [head] u → g.Derives [head] (u ++ v)) valid
      (fun b inside v read => ?_) (fun b inside v read => ?_) named derived
      (rewrites.terminalString_iff.2 terminal)
    · obtain ⟨c, direct, rfl⟩ := (loops.direct b).1 inside
      have old := (mem_directBodies.1 direct).1
      rw [loops.symbols_join_fresh, reads_append] at read
      obtain ⟨front, back, rfl, left, right⟩ := read
      have start := derives_of_reads_standing (loops.not_mem_symbols valid old) left
      exact standing_fresh.1 (reads_singleton.1 right) front (derives_of_mem_bodies old start)
    · intro u derivedHead
      rcases (loops.loop b).1 inside with rfl | ⟨tail, within, rfl⟩
      · obtain rfl : v = [] := by simpa [Body.symbols] using read
        rwa [List.append_nil]
      · -- the body `head tail` puts what the tail derives behind `u`, and the loop goes on
        rw [loops.symbols_join_fresh, reads_append] at read
        obtain ⟨front, back, rfl, left, right⟩ := read
        have whole := (mem_recursiveTails.1 within).2
        have without := loops.not_mem_symbols valid whole
        rw [symbols_cons (valid.ne_epsilon loops.known), List.mem_cons, not_or] at without
        have longer : g.Derives [head] (u ++ front) := by
          refine derives_of_mem_bodies whole ?_
          rw [symbols_cons (valid.ne_epsilon loops.known), ← List.singleton_append]
          exact derivedHead.append (derives_of_reads_standing without.2 left)
        rw [← List.append_assoc]
        exact standing_fresh.1 (reads_singleton.1 right) (u ++ front) longer

end Loops

end Loop

/-- `g'` is the grammar in which `head` keeps only the bodies that do not begin with it. -/
structure Trims (g g' : Grammar) (head : Symbol) : Prop where
  names : g'.names = g.names
  terminals : g'.terminals = g.terminals
  bodies : ∀ name, name ≠ head → g'.bodies name = g.bodies name
  direct : ∀ b, b ∈ g'.bodies head ↔ b ∈ g.directBodies head

theorem Trims.mem_bodies {g' : Grammar} (trims : g.Trims g' head) {name : Symbol} {b : Body}
    (inside : b ∈ g'.bodies name) : b ∈ g.bodies name := by
  by_cases same : name = head
  · subst same
    exact (mem_directBodies.1 ((trims.direct b).1 inside)).1
  · rwa [trims.bodies name same] at inside

/-- The three things that may happen to a non-terminal: it has no body but recursive ones and stays
as it is, it loses the recursive bodies that are nothing but its name, or it loops through what the
others have behind the name. -/
theorem removeImmediate_cases (valid : g.WellFormed) (known : head ∈ g.names) :
    (∀ b ∈ g.bodies head, ∃ rest, b = head :: rest) ∧ g.removeImmediate head = g ∨
      g.Trims (g.removeImmediate head) head ∨
      ∃ fresh tail, tail ∈ g.recursiveTails head ∧ g.Loops (g.removeImmediate head) head fresh := by
  unfold removeImmediate
  split
  case isTrue same =>
    rcases Bool.or_eq_true_iff.1 same with none | none
    · refine .inr (.inl ⟨rfl, rfl, fun _ _ => rfl, fun b => ?_⟩)
      have without : ¬ b ∈ g.bodiesStarting head head := by
        rw [List.isEmpty_iff.1 none]
        exact List.not_mem_nil
      rw [mem_bodiesStarting] at without
      rw [mem_directBodies]
      tauto
    · refine .inl ⟨fun b inside => ?_, rfl⟩
      by_contra direct
      have within := OrderedSet.mem_toList.2 (mem_directBodies.2 ⟨inside, direct⟩)
      rw [List.isEmpty_iff.1 none] at within
      exact List.not_mem_nil within
  case isFalse =>
    split
    case isTrue =>
      refine .inr (.inl ⟨names_setBodies g head _, rfl, fun name other => ?_, fun b => ?_⟩)
      · rw [bodies_setBodies known, if_neg other]
      · rw [bodies_setBodies known, if_pos rfl]
    case isFalse some =>
      rw [List.isEmpty_iff] at some
      obtain ⟨tail, within⟩ := List.exists_mem_of_ne_nil _ some
      exact .inr (.inr ⟨_, tail, within, loops_loopThrough valid known⟩)

theorem preserves_removeImmediate (valid : g.WellFormed) (known : head ∈ g.names) :
    g.Preserves (g.removeImmediate head) := by
  unfold removeImmediate
  split
  case isTrue => exact .refl valid
  case isFalse recursive =>
    have some : (g.directBodies head).isEmpty = false := by simp_all
    split
    case isTrue none => exact preserves_setBodies_directBodies valid known some none
    case isFalse => exact (loops_loopThrough valid known).preserves valid some

end Grammar

end Predictive
