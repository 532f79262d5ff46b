import Predictive.Proofs.Collection.Traversal
import Predictive.Proofs.Derivation.Unfolding
import Predictive.Proofs.LeftRecursion.Immediate

set_option autoImplicit false

namespace Predictive

namespace Grammar

variable {g : Grammar} {head earlier : Symbol}

theorem increasing_names (g : Grammar) : g.names.Pairwise (· < ·) :=
  g.nonTerminals.increasing_keys.imp fun below => compareOfLessAndEq_eq_lt.1 below

theorem unfolds_expandFront (valid : g.WellFormed) (known : earlier ∈ g.names) {c : Body}
    (leading : c ∈ g.bodiesStarting head earlier) :
    g.Unfolds earlier c (expandFront (g.bodies earlier).toList c) := by
  obtain ⟨-, rest, rfl⟩ := mem_bodiesStarting.1 leading
  refine ⟨[], Body.symbols rest, symbols_cons (valid.ne_epsilon known) rest, List.not_mem_nil, ?_, ?_⟩
  · intro e inside
    obtain ⟨front, -, rfl⟩ := List.mem_map.1 inside
    exact Body.isNormal_normalize _
  · simp only [expandFront, List.map_map, List.tail_cons, List.nil_append]
    apply List.map_congr_left
    intro front _
    exact Body.symbols_join front rest

theorem preserves_expandLeading (valid : g.WellFormed) (known : head ∈ g.names)
    (visited : earlier ∈ g.names) (apart : earlier ≠ head) :
    g.Preserves (g.expandLeading head earlier) := by
  simp only [expandLeading]
  split
  case isTrue => exact .refl valid
  case isFalse =>
    exact preserves_of_unfolds valid known visited apart
      (fun c leading => (mem_bodiesStarting.1 leading).1)
      (fun c leading => unfolds_expandFront valid visited leading)

section Visit

variable {visited before rest : List Symbol}

/-- The grammar in which the bodies of `head` that begin with a visited non-terminal are expanded,
one visited non-terminal after another. -/
def expandVisited (g : Grammar) (visited : List Symbol) (head : Symbol) : Grammar :=
  visited.foldl (fun g earlier => g.expandLeading head earlier) g

/-- What is done to `head` when its turn comes. -/
def visit (g : Grammar) (visited : List Symbol) (head : Symbol) : Grammar :=
  (g.expandVisited visited head).removeImmediate head

theorem eliminateFrom_cons (visited rest : List Symbol) (head : Symbol) (g : Grammar) :
    eliminateFrom visited (head :: rest) g =
      eliminateFrom (visited ++ [head]) rest (g.visit visited head) := rfl

theorem eliminateFrom_induction {I : List Symbol → Grammar → Prop} (start : I visited g)
    (step : ∀ before head after h, before ++ head :: after = visited ++ rest → I before h →
      I (before ++ [head]) (h.visit before head)) :
    I (visited ++ rest) (eliminateFrom visited rest g) := by
  -- by the names that are left, while `visited` grows at its end
  induction rest generalizing visited g with
  | nil => rwa [List.append_nil]
  | cons head rest ih =>
      have split : visited ++ head :: rest = visited ++ [head] ++ rest := by simp
      have next := step visited head rest g rfl start
      rw [split, eliminateFrom_cons]
      exact ih next fun before other after h same => step before other after h (same.trans split.symm)

/-- It is the turn of `head` to be visited: `h` is what has become of `g` so far. -/
structure Turn (g h : Grammar) (before : List Symbol) (head : Symbol) : Prop where
  preserved : g.Preserves h
  split : ∃ after, before ++ head :: after = g.names

namespace Turn

variable {h : Grammar} (turn : g.Turn h before head)

include turn

theorem original : head ∈ g.names := by
  obtain ⟨after, split⟩ := turn.split
  rw [← split]
  exact List.mem_append_right before List.mem_cons_self

theorem known : head ∈ h.names := turn.preserved.names head turn.original

theorem original_of_mem (among : earlier ∈ before) : earlier ∈ g.names := by
  obtain ⟨after, split⟩ := turn.split
  rw [← split]
  exact List.mem_append_left _ among

theorem increasing : before.Pairwise (· < ·) ∧ (∀ earlier ∈ before, earlier < head) ∧
    ∀ s ∈ g.names, s ∉ before → s = head ∨ head < s := by
  obtain ⟨after, split⟩ := turn.split
  have ordered := g.increasing_names
  rw [← split, List.pairwise_append, List.pairwise_cons] at ordered
  obtain ⟨first, ⟨next, -⟩, across⟩ := ordered
  refine ⟨first, fun earlier among => across earlier among head List.mem_cons_self, ?_⟩
  intro s named unvisited
  rw [← split, List.mem_append, List.mem_cons] at named
  exact (named.resolve_left unvisited).imp_right (next s)

theorem apart : head ∉ before := fun among =>
  String.lt_irrefl head (turn.increasing.2.1 head among)

/-- What holds at the beginning of a visit and is kept by every expansion holds after them, and the
languages are kept as well. -/
theorem expandVisited_induction {I : Grammar → Prop} (start : I h)
    (step : ∀ h' earlier, h'.WellFormed → head ∈ h'.names → earlier ∈ h'.names → earlier ≠ head →
      I h' → I (h'.expandLeading head earlier)) :
    h.Preserves (h.expandVisited before head) ∧ I (h.expandVisited before head) := by
  refine List.foldlRecOn (motive := fun h' => h.Preserves h' ∧ I h') before _
    ⟨.refl turn.preserved.wellFormed, start⟩ fun h' kept earlier among => ?_
  obtain ⟨reached, inv⟩ := kept
  have known := reached.names head turn.known
  have visited := reached.names earlier
    (turn.preserved.names earlier (turn.original_of_mem among))
  have apart : earlier ≠ head := by
    rintro rfl
    exact turn.apart among
  exact ⟨reached.trans (preserves_expandLeading reached.wellFormed known visited apart),
    step h' earlier reached.wellFormed known visited apart inv⟩

theorem preserves_expandVisited : h.Preserves (h.expandVisited before head) :=
  (turn.expandVisited_induction (I := fun _ => True) trivial fun _ _ _ _ _ _ _ => trivial).1

theorem preserves_visit : h.Preserves (h.visit before head) := by
  have expanded := turn.preserves_expandVisited
  exact expanded.trans
    (preserves_removeImmediate expanded.wellFormed (expanded.names head turn.known))

end Turn

/-- What holds at the beginning and is kept by every visit holds in the end, and the languages are
kept as well. -/
theorem eliminateLeftRecursion_induction {I : List Symbol → Grammar → Prop} (valid : g.WellFormed)
    (start : I [] g)
    (step : ∀ before head h, g.Turn h before head → I before h →
      I (before ++ [head]) (h.visit before head)) :
    g.Preserves g.eliminateLeftRecursion ∧ I g.names g.eliminateLeftRecursion := by
  have begun : g.Preserves g ∧ I [] g := ⟨.refl valid, start⟩
  refine eliminateFrom_induction (I := fun before h => g.Preserves h ∧ I before h) begun
    fun before head after h split reached => ?_
  have turn : g.Turn h before head := ⟨reached.1, after, split⟩
  exact ⟨reached.1.trans turn.preserves_visit, step before head h turn reached.2⟩

end Visit

/-- Removing left recursion keeps the languages of all non-terminals. -/
theorem preserves_eliminateLeftRecursion (valid : g.WellFormed) :
    g.Preserves g.eliminateLeftRecursion :=
  (eliminateLeftRecursion_induction (I := fun _ _ => True) valid trivial
    fun _ _ _ _ _ => trivial).1

theorem eliminateImmediateLeftRecursion_eq_ok_iff {g' : Grammar} :
    g.eliminateImmediateLeftRecursion head = .ok g' ↔
      head ∈ g.names ∧ g.removeImmediate head = g' := by
  rw [eliminateImmediateLeftRecursion, bind_eq_ok_iff]
  constructor
  · intro found
    rcases found with ⟨bodies, found, done⟩
    unfold productions at found
    split at found
    case h_1 entry present =>
      exact ⟨OrderedMap.mem_of_get?_eq_some present, pure_eq_ok_iff.1 done⟩
    case h_2 => contradiction
  · intro found
    rcases found with ⟨known, same⟩
    cases found : g.nonTerminals.get? head with
    | none => exact absurd known (OrderedMap.get?_eq_none_iff.1 found)
    | some entry =>
        refine ⟨entry.productions, ?_, pure_eq_ok_iff.2 same⟩
        rw [productions, found]

end Grammar

end Predictive
