import Predictive.Proofs.FirstFollow.Marks
import Mathlib.Tactic.Tauto

set_option autoImplicit false

namespace Predictive

namespace Grammar

variable {g h r : Grammar} {t name head : Symbol} {b : Body} {front rest : List Symbol}

/-- `Follows g name t`: the end mark follows the start symbol, what opens the rest of a body follows
the symbol before it, and so does what follows the head if the rest derives the empty form. -/
inductive Follows (g : Grammar) : Symbol → Symbol → Prop where
  | start : Follows g g.start endMark
  | opened {head name t : Symbol} {b : Body} {front rest : List Symbol} (inside : b ∈ g.bodies head)
      (split : Body.symbols b = front ++ name :: rest) (opens : g.Opens rest t) : Follows g name t
  | passed {head name t : Symbol} {b : Body} {front rest : List Symbol} (inside : b ∈ g.bodies head)
      (split : Body.symbols b = front ++ name :: rest) (empty : g.Derives rest [])
      (behind : Follows g head t) : Follows g name t

/-- What an expansion of `head` by a form calls for: a terminal that opens the form, or one that
follows the head if the form derives the empty one. -/
def Predicts (g : Grammar) (head : Symbol) (u : List Symbol) (t : Symbol) : Prop :=
  g.Opens u t ∨ g.Derives u [] ∧ g.Follows head t

theorem follows_of_predicts (inside : b ∈ g.bodies head)
    (split : Body.symbols b = front ++ name :: rest) (predicts : g.Predicts head rest t) :
    g.Follows name t := by
  rcases predicts with opens | ⟨empty, behind⟩
  · exact .opened inside split opens
  · exact .passed inside split empty behind

/-- Sets that hold the end mark behind the start symbol, and whatever an occurrence in a body calls
for, hold all that follows. -/
theorem Follows.of_closed {Q : Symbol → Symbol → Prop} (follows : g.Follows name t)
    (start : Q g.start endMark)
    (step : ∀ head b front name rest t, b ∈ g.bodies head →
      Body.symbols b = front ++ name :: rest →
      (g.Opens rest t ∨ g.Derives rest [] ∧ Q head t) → Q name t) : Q name t := by
  induction follows with
  | start => exact start
  | opened inside split opens => exact step _ _ _ _ _ _ inside split (.inl opens)
  | passed inside split empty _ ih => exact step _ _ _ _ _ _ inside split (.inr ⟨empty, ih⟩)

theorem predicts_append_iff {u v : List Symbol} :
    g.Predicts head (u ++ v) t ↔ g.Opens u t ∨ g.Derives u [] ∧ g.Predicts head v t := by
  rw [Predicts, Predicts, opens_append_iff, derives_append_nil_iff]
  tauto

theorem Predicts.append_left {u v v' : List Symbol} (predicts : g.Predicts head (u ++ v) t)
    (weaker : g.Predicts head v t → g.Predicts head v' t) : g.Predicts head (u ++ v') t := by
  rw [predicts_append_iff] at predicts ⊢
  exact predicts.imp_right (And.imp_right weaker)

theorem Predicts.of_mem_bodies {p : Body} {v : List Symbol} (inside : p ∈ g.bodies name)
    (predicts : g.Predicts head (Body.symbols p ++ v) t) : g.Predicts head (name :: v) t := by
  rw [← List.singleton_append]
  rw [predicts_append_iff] at predicts ⊢
  exact predicts.imp (opens_of_mem_bodies inside) (And.imp_left (derives_of_mem_bodies inside))

theorem Predicts.of_append {u v : List Symbol} (predicts : g.Predicts head (u ++ v) t)
    (behind : g.Predicts head v t → g.Follows name t) : g.Predicts name u t := by
  rw [predicts_append_iff] at predicts
  exact predicts.imp_right (And.imp_right behind)

theorem symbols_split (other : name ≠ epsilon) (front rest : List Symbol) :
    Body.symbols (front ++ name :: rest) = Body.symbols front ++ name :: Body.symbols rest := by
  have single : Body.symbols [name] = [name] := by simp [Body.symbols, other]
  rw [← List.singleton_append, Body.symbols_append, Body.symbols_append, single,
    List.singleton_append]

theorem WellFormed.followAllowedAfter_follows (valid : g.WellFormed) :
    g.FollowAllowedAfter (fun name t => g.FirstMark [name] t) g.Follows := by
  refine ⟨.start, fun h same fine head name rest occurs => ?_⟩
  obtain ⟨named, front, inside⟩ := occurs
  rw [same.allProductions, valid.named.mem_allProductions] at inside
  have known : g.Known rest := fun s within => valid.bodiesKnown head _ inside s
    (List.mem_append_right front (List.mem_cons_of_mem name within))
  have split := symbols_split (valid.ne_epsilon (same.names ▸ named)) front rest
  constructor
  · intro t other begins
    have marked := firstMark_of_begins valid same.names fine known begins
    exact .opened inside split (marked.resolve_right fun nothing => other nothing.1)
  · intro begins t behind
    have marked := firstMark_of_begins valid same.names fine known begins
    rcases marked with ⟨terminal, -⟩ | ⟨-, empty⟩
    · exact absurd (mem_allSymbols.2 (.inr terminal)) valid.noEpsilon
    · exact .passed inside split empty behind

theorem Saturated.mem_storedFollow (saturated : g.Saturated) (valid : g.WellFormed)
    (follows : g.Follows name t) (named : name ∈ g.names) : t ∈ g.storedFollow name := by
  induction follows with
  | start => exact saturated.marked
  | @opened head name t b front rest inside split opens =>
      have whole := (valid.fits head b inside).symbols_eq (by simp [split])
      have begins := saturated.begins_of_firstMark valid (.inl opens)
      have other := valid.ne_epsilon_of_mem (mem_allSymbols.2 (.inr opens.1))
      have listed := valid.named.mem_allProductions.2 inside
      exact (saturated.follows head b listed front name rest (whole.symm.trans split) named).1 t
        other begins
  | @passed head name t b front rest inside split empty _ ih =>
      have whole := (valid.fits head b inside).symbols_eq (by simp [split])
      have begins := saturated.begins_of_firstMark valid (.inr ⟨rfl, empty⟩)
      have listed := valid.named.mem_allProductions.2 inside
      exact (saturated.follows head b listed front name rest (whole.symm.trans split) named).2
        begins t (ih (mem_names_of_mem_bodies inside))

theorem Follows.mem_followMarks (follows : g.Follows name t) : t ∈ g.followMarks := by
  induction follows with
  | start => exact Grammar.mem_followMarks.2 (.inl rfl)
  | opened _ _ opens => exact Grammar.mem_followMarks.2 (.inr opens.1)
  | passed _ _ _ _ ih => exact ih

section Exact

/-- The grammar `r` has the rules of `g`, and its stored sets are those of the derivations. -/
structure Exact (g r : Grammar) : Prop extends g.SameRules r where
  flag : r.firstFollowValid = true
  first : ∀ name ∈ g.names, ∀ t, t ∈ r.storedFirst name ↔ g.FirstMark [name] t
  nullable : ∀ name ∈ g.names, r.storedNullable name = true ↔ g.Derives [name] []
  follow : ∀ name ∈ g.names, ∀ t, t ∈ r.storedFollow name ↔ g.Follows name t
  begins : ∀ u, g.Known u → ∀ t, r.Begins t u ↔ g.FirstMark (Body.symbols u) t

theorem SameRules.opens (same : g.SameRules h) {u : List Symbol} (opens : g.Opens u t) :
    h.Opens u t := by
  obtain ⟨terminal, rest, derived⟩ := opens
  rw [← same.terminals] at terminal
  exact ⟨terminal, rest, same.derives derived⟩

theorem SameRules.firstMark (same : g.SameRules h) {u : List Symbol} (marked : g.FirstMark u t) :
    h.FirstMark u t :=
  marked.imp same.opens (And.imp_right same.derives)

theorem SameRules.follows (same : g.SameRules h) (follows : g.Follows name t) :
    h.Follows name t := by
  induction follows with
  | start =>
      rw [← same.start]
      exact .start
  | opened inside split opens =>
      rw [← same.bodies] at inside
      exact .opened inside split (same.opens opens)
  | passed inside split empty _ ih =>
      rw [← same.bodies] at inside
      exact .passed inside split (same.derives empty) ih

theorem begins_name_iff (other : name ≠ epsilon) (named : name ∈ g.names) :
    g.Begins t [name] ↔ t ∈ g.storedFirst name := by
  rw [begins_name_cons other named, begins_nil]
  constructor
  · intro found
    rcases found with ⟨-, inside⟩ | ⟨empty, same⟩
    · exact inside
    · rwa [same]
  · intro inside
    by_cases same : t = epsilon
    · exact .inr ⟨same ▸ inside, same⟩
    · exact .inl ⟨same, inside⟩

theorem mem_firstMarks_of_firstMark {u : List Symbol} (marked : g.FirstMark u t) :
    t ∈ g.firstMarks :=
  Grammar.mem_firstMarks.2 (marked.symm.imp And.left And.left)

/-- The computation answers with the sets of the derivations. -/
theorem WellFormed.exists_exact (valid : g.WellFormed) :
    ∃ r, g.computeFirstFollow = .ok r ∧ g.Exact r := by
  obtain ⟨r, done, computed⟩ := Grammar.exists_computed valid.productionsKnown valid.start
    valid.firstAllowed_firstMark (fun _ _ => mem_firstMarks_of_firstMark)
    valid.followAllowedAfter_follows (fun _ _ => Follows.mem_followMarks)
  have same := computed.toSameRules
  have valid' := same.wellFormed valid
  have begins (u : List Symbol) (known : g.Known u) (t : Symbol) :
      r.Begins t u ↔ g.FirstMark (Body.symbols u) t := by
    constructor
    · exact firstMark_of_begins valid same.names computed.allowedFirst known
    · intro marked
      exact begins_symbols_iff.1
        (computed.toSaturated.begins_of_firstMark valid' (same.firstMark marked))
  have first (name : Symbol) (named : name ∈ g.names) (t : Symbol) :
      t ∈ r.storedFirst name ↔ g.FirstMark [name] t := by
    refine ⟨computed.allowedFirst name t, fun marked => ?_⟩
    have named' : name ∈ r.names := by rwa [same.names]
    exact (begins_name_iff (valid.ne_epsilon named) named').1
      (computed.toSaturated.begins_of_firstMark valid' (same.firstMark marked))
  refine ⟨r, done, same, computed.flag, first, fun name named => ?_, fun name named t => ?_, begins⟩
  · rw [computed.nullable, decide_eq_true_eq, first name named]
    refine ⟨fun marked => ?_, fun empty => .inr ⟨rfl, empty⟩⟩
    rcases marked with ⟨terminal, -⟩ | ⟨-, empty⟩
    · exact absurd (mem_allSymbols.2 (.inr terminal)) valid.noEpsilon
    · exact empty
  · have named' : name ∈ r.names := by rwa [same.names]
    exact ⟨computed.allowedFollow name t,
      fun follows => computed.toSaturated.mem_storedFollow valid' (same.follows follows) named'⟩

end Exact

end Grammar

end Predictive
