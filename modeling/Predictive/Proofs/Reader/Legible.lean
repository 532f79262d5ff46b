import Predictive.Proofs.Grammar.Origin
import Predictive.Proofs.Prediction.Verdict
import Predictive.Proofs.Reader.Exactness

set_option autoImplicit false

namespace Predictive

open Text

/-- A symbol as a text has it: not empty, without white space and without an arrow. -/
structure Legible (s : Symbol) : Prop where
  inhabited : s.toList ≠ []
  solid : Solid s.toList
  free : ¬ arrow <:+: s.toList

variable {text right : List Char} {ls : List (List Char)} {s head : Symbol} {symbols : List Symbol}
  {g : Grammar}

theorem Legible.primed (legible : Legible s) (count : Nat) : Legible (Grammar.primed s count) where
  inhabited := by simp [legible.inhabited]
  solid := by
    rw [Grammar.toList_primed]
    refine List.forall_mem_append.2 ⟨legible.solid, fun c inside => ?_⟩
    rw [List.eq_of_mem_replicate inside]
    decide
  free := by
    rw [Grammar.toList_primed]
    cases count with
    | zero => simpa using legible.free
    | succ count =>
        rw [List.replicate_succ, arrow_isInfix_append_cons_iff (by decide), not_or]
        refine ⟨legible.free, fun inside => ?_⟩
        have dash := List.eq_of_mem_replicate (inside.subset (show '-' ∈ arrow by decide))
        contradiction

namespace GrammarText

theorem legible_of_mem_tokens (free : ¬ arrow <:+: text) (inside : s ∈ tokens text) :
    Legible s := by
  rw [tokens_eq_words] at inside
  obtain ⟨word, among, rfl⟩ := List.mem_map.1 inside
  obtain ⟨some, solid⟩ := solid_of_mem_words among
  rw [← String.toList_ofList (l := word)] at some solid
  refine ⟨some, solid, fun arrowed => free ?_⟩
  rw [String.toList_ofList] at arrowed
  exact arrowed.trans (isInfix_of_mem_words among)

theorem HeadLine.legible {line : List Char} (headed : HeadLine line head right) : Legible head := by
  obtain ⟨left, -, free, -, ⟨some, solid, front, back, -, -, rfl⟩, -⟩ := headed
  exact ⟨some, solid, fun arrowed => free (arrowed.trans (List.infix_append front _ back))⟩

theorem RightPart.free {line : List Char} (part : RightPart line right) :
    ¬ arrow <:+: right := by
  rcases part with ⟨head, left, -, -, free, -⟩ | ⟨free, front, -, rfl⟩
  · exact free
  · intro arrowed
    exact free (arrowed.trans ⟨front ++ ['|'], [], by simp⟩)

theorem HasAlternative.legible (listed : HasAlternative ls head symbols) (inside : s ∈ symbols) :
    Legible s ∧ '|' ∉ s.toList := by
  obtain ⟨right, ⟨above, line, below, -, part, -⟩, piece, cut, rfl⟩ := listed
  rw [← pieces_eq_splitOn] at cut
  refine ⟨legible_of_mem_tokens (fun arrowed => ?_) inside, fun bar => ?_⟩
  · exact part.free (arrowed.trans (isInfix_of_mem_pieces cut))
  · rw [tokens_eq_words] at inside
    obtain ⟨word, among, rfl⟩ := List.mem_map.1 inside
    rw [String.toList_ofList] at bar
    exact not_mem_of_mem_pieces cut ((isInfix_of_mem_words among).subset bar)

end GrammarText

theorem Legible.newline_not_mem (legible : Legible s) : '\n' ∉ s.toList :=
  fun inside => absurd (legible.solid _ inside) (by decide)

theorem legible_singleton {c : Char} (black : isBlank c = false) : Legible (String.ofList [c]) where
  inhabited := by simp
  solid := by simpa [Solid] using black
  free := by
    intro arrowed
    have long := arrowed.length_le
    simp [arrow] at long

theorem legible_epsilon : Legible epsilon := legible_singleton (c := '&') (by decide)

theorem legible_endMark : Legible endMark := legible_singleton (c := '$') (by decide)

/-- A table all symbols of which can be read. -/
structure ParseTable.Printable (t : ParseTable) : Prop where
  heads : ∀ head ∈ t.nonTerminals, Legible head
  labels : ∀ s ∈ t.terminals, Legible s
  cells : ∀ head terminal, ∀ b ∈ t.entries head terminal, ∀ s ∈ b, Legible s

namespace Grammar

open GrammarText

/-- No body holds a symbol with a bar in it. -/
def BarFree (g : Grammar) : Prop := ∀ name, ∀ b ∈ g.bodies name, ∀ s ∈ b, '|' ∉ s.toList

instance (g : Grammar) : Decidable g.BarFree :=
  decidable_of_iff (∀ name ∈ g.names, ∀ b ∈ (g.bodies name).toList, ∀ s ∈ b, '|' ∉ s.toList) <| by
    constructor
    · intro each name b inside
      exact each name (mem_names_of_mem_bodies inside) b (OrderedSet.mem_toList.2 inside)
    · intro bars name _ b inside
      exact bars name b (OrderedSet.mem_toList.1 inside)

theorem legible_of_parse {text : String} (done : parse text = .ok g) :
    ∀ s ∈ g.allSymbols, Legible s := by
  have denotes := denotes_of_parse done
  intro s known
  rcases mem_allSymbols.1 known with named | terminal
  · obtain ⟨line, -, right, headed⟩ := (denotes.names s).1 named
    exact headed.legible
  · obtain ⟨⟨name, symbols, listed, inside⟩, -⟩ := (denotes.terminals s).1 terminal
    exact (listed.legible inside).1

theorem barFree_of_parse {text : String} (done : parse text = .ok g) : g.BarFree := by
  intro name b body s inside
  obtain ⟨symbols, listed, rfl⟩ := ((denotes_of_parse done).bodies name b).1 body
  by_cases mark : s = epsilon
  · subst mark
    decide
  · have among : s ∈ Body.symbols (Body.normalize symbols) := Body.mem_symbols.2 ⟨inside, mark⟩
    rw [Body.symbols_normalize] at among
    exact (listed.legible (Body.mem_symbols.1 among).1).2

theorem Reachable.legible (reachable : g.Reachable) : ∀ s ∈ g.allSymbols, Legible s := by
  obtain ⟨text, origin, read, stems⟩ := reachable.exists_origin
  have old := legible_of_parse read
  intro s known
  rcases mem_allSymbols.1 known with named | terminal
  · obtain ⟨name, named', count, rfl⟩ := stems.names s named
    exact (old name (mem_allSymbols.2 (.inl named'))).primed count
  · rw [stems.terminals] at terminal
    exact old s (mem_allSymbols.2 (.inr terminal))

theorem WellFormed.legible_of_mem_bodies (valid : g.WellFormed)
    (legible : ∀ s ∈ g.allSymbols, Legible s) {name : Symbol} {b : Body} (body : b ∈ g.bodies name) :
    ∀ s ∈ b, Legible s := by
  intro s inside
  by_cases mark : s = epsilon
  · subst mark
    exact legible_epsilon
  · exact legible s ((valid.fits name b body).2 s (Body.mem_symbols.2 ⟨inside, mark⟩))

/-- A grammar that can be written as a text. -/
structure Writable (g : Grammar) : Prop where
  wellFormed : g.WellFormed
  legible : ∀ s ∈ g.allSymbols, Legible s
  barFree : g.BarFree

theorem Writable.legible_of_mem_bodies (writable : g.Writable) {name : Symbol} {b : Body}
    (body : b ∈ g.bodies name) : ∀ s ∈ b, Legible s :=
  writable.wellFormed.legible_of_mem_bodies writable.legible body

theorem Reachable.exists_printable_table (reachable : g.Reachable) : ∃ t, g.buildTable = .ok t ∧
    t.nonTerminals = g.names ∧ t.terminals = g.terminals.toList ++ [endMark] ∧ t.Printable := by
  have valid := reachable.wellFormed
  have legible := reachable.legible
  obtain ⟨-, t, -, -, built, tabulates⟩ := exists_tabulates valid reachable.current
  refine ⟨t, built, tabulates.heads, tabulates.columns, ?_, ?_, ?_⟩
  · intro head named
    rw [tabulates.heads] at named
    exact legible head (mem_allSymbols.2 (.inl named))
  · intro s inside
    rw [tabulates.columns, List.mem_append, List.mem_singleton] at inside
    rcases inside with terminal | rfl
    · exact legible s (mem_allSymbols.2 (.inr terminal))
    · exact legible_endMark
  · intro head terminal b held
    exact valid.legible_of_mem_bodies legible (tabulates.own head terminal b held)

theorem writable_of_parse {text : String} (done : parse text = .ok g) : g.Writable :=
  ⟨(wellFormed_of_parse done).1, legible_of_parse done, barFree_of_parse done⟩

theorem Reachable.writable (reachable : g.Reachable) (bars : g.BarFree) : g.Writable :=
  ⟨reachable.wellFormed, reachable.legible, bars⟩

end Grammar

end Predictive
