import Predictive.Proofs.Reader.Lines

set_option autoImplicit false

namespace Predictive

namespace GrammarText

open Text

variable {ls ls' : List (List Char)} {head name : Symbol} {symbols : List Symbol} {b : Body}
  {g g' : Grammar}

theorem isHead_iff : IsHead ls name ↔ ∃ symbols, HasAlternative ls name symbols := by
  constructor
  · rintro ⟨line, inside, right, headed⟩
    obtain ⟨above, below, split⟩ := List.append_of_mem inside
    obtain ⟨piece, cut⟩ := List.exists_mem_of_ne_nil _ (pieces_ne_nil '|' right)
    rw [pieces_eq_splitOn] at cut
    exact ⟨tokens piece, right, ⟨above, line, below, split, .inl ⟨name, headed⟩,
      headed.lastHead above⟩, piece, cut, rfl⟩
  · rintro ⟨symbols, right, ⟨above, line, below, rfl, -, last⟩, -⟩
    obtain ⟨front, found, between, part, split, headed, -⟩ := last
    have inside : found ∈ above ++ [line] ++ below := by simp [split]
    rw [List.append_assoc] at inside
    exact ⟨found, inside, part, headed⟩

theorem exists_hasBody_iff : (∃ b, HasBody ls name b) ↔ IsHead ls name := by
  rw [isHead_iff]
  constructor
  · rintro ⟨b, symbols, listed, -⟩
    exact ⟨symbols, listed⟩
  · rintro ⟨symbols, listed⟩
    exact ⟨_, symbols, listed, rfl⟩

theorem exists_alternative_iff {s : Symbol} (other : s ≠ epsilon) :
    (∃ name symbols, HasAlternative ls name symbols ∧ s ∈ symbols) ↔
      ∃ name b, HasBody ls name b ∧ s ∈ b := by
  have kept (symbols : List Symbol) : s ∈ Body.normalize symbols ↔ s ∈ symbols := by
    have same : s ∈ Body.symbols (Body.normalize symbols) ↔ s ∈ Body.symbols symbols := by
      rw [Body.symbols_normalize]
    simpa only [Body.mem_symbols, other, ne_eq, not_false_eq_true, and_true] using same
  constructor
  · rintro ⟨name, symbols, listed, inside⟩
    exact ⟨name, _, ⟨symbols, listed, rfl⟩, (kept symbols).2 inside⟩
  · rintro ⟨name, b, ⟨symbols, listed, rfl⟩, inside⟩
    exact ⟨name, symbols, listed, (kept symbols).1 inside⟩

theorem FirstHead.unique {head' : Symbol} (one : FirstHead ls head) (other : FirstHead ls head') :
    head = head' := by
  obtain ⟨line, below, right, rfl, headed⟩ := one
  obtain ⟨line', below', right', same, headed'⟩ := other
  obtain ⟨rfl, -⟩ := List.cons.inj same
  exact (headed.unique headed').1

theorem Denotes.eq (one : Denotes ls g) (other : Denotes ls' g')
    (first : ∀ head, FirstHead ls head ↔ FirstHead ls' head)
    (same : ∀ head b, HasBody ls head b ↔ HasBody ls' head b) : g' = g := by
  have heads (name : Symbol) : IsHead ls name ↔ IsHead ls' name := by
    rw [← exists_hasBody_iff, ← exists_hasBody_iff]
    exact exists_congr fun b => same name b
  have rules : g.SameRules g' := by
    refine ⟨other.start.unique ((first _).1 one.start), ?_, ?_, fun key => ?_, fun name => ?_⟩
    · ext s
      rw [one.terminals, other.terminals, heads]
      refine and_congr_left fun plain => ?_
      rw [exists_alternative_iff plain.1, exists_alternative_iff plain.1]
      simp only [same]
    · refine OrderedMap.keys_eq_of_mem_iff fun name => ?_
      rw [← Grammar.mem_names, ← Grammar.mem_names, other.names, one.names, heads]
    · rw [Grammar.named_iff.1 one.named, Grammar.named_iff.1 other.named]
    · ext b
      rw [other.bodies, one.bodies, same]
  obtain ⟨stale, stored⟩ := one.unstored
  obtain ⟨stale', stored'⟩ := other.unstored
  refine Grammar.ext_stored rules (by rw [stale, stale']) ?_ ?_ ?_
  · exact fun name => by rw [(stored name).1, (stored' name).1]
  · exact fun name => by rw [(stored name).2.1, (stored' name).2.1]
  · exact fun name => by rw [(stored name).2.2, (stored' name).2.2]

end GrammarText

namespace RuleLine

open Text GrammarText

variable {number : Nat} {text : List Char} {symbols : List Symbol} {rule : RuleLine}
  {alternatives : List (Symbol × List Symbol)}

theorem readAlternative_eq_ok_iff : readAlternative number text = .ok symbols ↔
    symbols = tokens text ∧ tokens text ≠ [] ∧ endMark ∉ tokens text := by
  rw [readAlternative, ← tokens_eq_words]
  simp only [List.isEmpty_iff]
  split
  case isTrue nothing => simp [nothing]
  case isFalse something =>
    split
    case isTrue marked => simp [marked]
    case isFalse unmarked => simp [something, unmarked, eq_comm]

theorem alternative_eq_ok_iff {a : Symbol × List Symbol} :
    (do let symbols ← readAlternative rule.line text; return (rule.head, symbols)) = Except.ok a ↔
      a = (rule.head, tokens text) ∧ tokens text ≠ [] ∧ endMark ∉ tokens text := by
  simp only [bind_eq_ok_iff, pure_eq_ok_iff, readAlternative_eq_ok_iff]
  constructor
  · rintro ⟨symbols, ⟨rfl, filled⟩, rfl⟩
    exact ⟨rfl, filled⟩
  · rintro ⟨rfl, filled⟩
    exact ⟨_, ⟨rfl, filled⟩, rfl⟩

theorem mem_alternatives_iff (done : rule.alternatives = .ok alternatives)
    {a : Symbol × List Symbol} :
    a ∈ alternatives ↔ a.1 = rule.head ∧ ∃ piece ∈ rule.right.splitOn '|', a.2 = tokens piece := by
  rw [RuleLine.alternatives, pieces_eq_splitOn] at done
  constructor
  · intro inside
    obtain ⟨piece, cut, made⟩ := (mapM_eq_ok done).1 a inside
    obtain ⟨rfl, -⟩ := alternative_eq_ok_iff.1 made
    exact ⟨rfl, piece, cut, rfl⟩
  · rintro ⟨head, piece, cut, symbols⟩
    obtain ⟨found, inside, made⟩ := (mapM_eq_ok done).2 piece cut
    obtain ⟨rfl, -⟩ := alternative_eq_ok_iff.1 made
    rwa [show a = (rule.head, tokens piece) from Prod.ext head symbols]

theorem exists_alternatives_iff : (∃ alternatives, rule.alternatives = .ok alternatives) ↔
    ∀ piece ∈ rule.right.splitOn '|', tokens piece ≠ [] ∧ endMark ∉ tokens piece := by
  rw [← pieces_eq_splitOn]
  constructor
  · rintro ⟨alternatives, done⟩ piece cut
    obtain ⟨a, -, made⟩ := (mapM_eq_ok done).2 piece cut
    exact (alternative_eq_ok_iff.1 made).2
  · intro filled
    refine exists_mapM_eq_ok fun piece cut => ?_
    exact ⟨_, alternative_eq_ok_iff.2 ⟨rfl, filled piece cut⟩⟩

end RuleLine

namespace Grammar

open Text GrammarText

variable {text : String} {g : Grammar} {rules : List RuleLine}

theorem readFrom_lines (done : RuleLine.readAll none 1 (pieces '\n' text.toList) = .ok rules) :
    ReadFrom none (lines text) (rules.map RuleLine.given) := by
  rw [pieces_eq_splitOn] at done
  exact RuleLine.readFrom_of_readAll done

theorem mem_flatten_iff_hasAlternative {alternatives : List (List (Symbol × List Symbol))}
    (reads : ReadFrom none (lines text) (rules.map RuleLine.given))
    (read : rules.mapM RuleLine.alternatives = .ok alternatives) {head : Symbol}
    {symbols : List Symbol} :
    (head, symbols) ∈ alternatives.flatten ↔ HasAlternative (lines text) head symbols := by
  simp only [HasAlternative, ← reads.mem_iff_gives, List.mem_flatten, List.mem_map]
  constructor
  · rintro ⟨part, listed, inside⟩
    obtain ⟨rule, among, made⟩ := (mapM_eq_ok read).1 part listed
    obtain ⟨rfl, cut⟩ := (RuleLine.mem_alternatives_iff made).1 inside
    exact ⟨rule.right, ⟨rule, among, rfl⟩, cut⟩
  · rintro ⟨right, ⟨rule, among, same⟩, cut⟩
    obtain ⟨rfl, rfl⟩ := Prod.mk.inj same
    obtain ⟨part, listed, made⟩ := (mapM_eq_ok read).2 rule among
    exact ⟨part, listed, (RuleLine.mem_alternatives_iff made).2 ⟨rfl, cut⟩⟩

theorem reading_ofAlternatives {β : Type} {read : NonTerminal → β} {absent : β}
    (new : ∀ name bodies, read (.ofProductions name bodies) = absent) (start : Symbol)
    (alternatives : List (Symbol × List Symbol)) (name : Symbol) :
    (ofAlternatives start alternatives).reading read absent name = absent := by
  rw [reading, ofAlternatives, OrderedMap.get?_tabulate]
  by_cases headed : name ∈ OrderedSet.ofList (alternatives.map Prod.fst)
  · rw [if_pos headed]
    exact new name _
  · rw [if_neg headed]

theorem denotes_ofAlternatives {ls : List (List Char)} {start : Symbol}
    {alternatives : List (Symbol × List Symbol)} (first : FirstHead ls start)
    (listed : ∀ head symbols, (head, symbols) ∈ alternatives ↔ HasAlternative ls head symbols) :
    Denotes ls (ofAlternatives start alternatives) := by
  have names (name : Symbol) :
      name ∈ (ofAlternatives start alternatives).names ↔ IsHead ls name := by
    rw [mem_names_ofAlternatives, isHead_iff]
    simp only [← listed, Prod.exists, exists_and_right, exists_eq_right]
  refine ⟨named_ofAlternatives, first, names, fun name b => ?_, fun s => ?_, rfl,
    fun name => ⟨?_, ?_, ?_⟩⟩
  · rw [mem_bodies_ofAlternatives, HasBody]
    simp only [← listed, Prod.exists]
    constructor
    · rintro ⟨_, symbols, inside, rfl, rfl⟩
      exact ⟨symbols, inside, rfl⟩
    · rintro ⟨symbols, inside, rfl⟩
      exact ⟨name, symbols, inside, rfl, rfl⟩
  · rw [mem_terminals_ofAlternatives, names]
    simp only [← listed, Prod.exists]
  · exact reading_ofAlternatives (fun _ _ => rfl) start alternatives name
  · exact reading_ofAlternatives (fun _ _ => rfl) start alternatives name
  · exact reading_ofAlternatives (fun _ _ => rfl) start alternatives name

/-- What is read is what the lines denote. -/
theorem denotes_of_parse (done : parse text = .ok g) : Denotes (lines text) g := by
  obtain ⟨first, others, alternatives, shaped, read, rfl⟩ := parse_eq_ok_iff.1 done
  have reads := readFrom_lines shaped
  refine denotes_ofAlternatives ?_ fun head symbols => mem_flatten_iff_hasAlternative reads read
  rw [List.map_cons] at reads
  exact reads.firstHead

theorem accepted_of_parse (done : parse text = .ok g) : Accepted (lines text) := by
  obtain ⟨first, others, alternatives, shaped, read, -⟩ := parse_eq_ok_iff.1 done
  refine (readFrom_lines shaped).accepted (by simp) fun pair listed => ?_
  obtain ⟨rule, among, rfl⟩ := List.mem_map.1 listed
  obtain ⟨own, -, made⟩ := (mapM_eq_ok read).2 rule among
  exact RuleLine.exists_alternatives_iff.1 ⟨own, made⟩

theorem exists_alternatives_of_accepted (accepted : Accepted (lines text))
    (reads : ReadFrom none (lines text) (rules.map RuleLine.given)) :
    ∃ alternatives, rules.mapM RuleLine.alternatives = .ok alternatives := by
  refine exists_mapM_eq_ok fun rule among => RuleLine.exists_alternatives_iff.2 ?_
  have listed : rule.given ∈ rules.map RuleLine.given := List.mem_map.2 ⟨rule, among, rfl⟩
  obtain ⟨above, line, below, split, part, -⟩ := reads.mem_iff_gives.1 listed
  exact accepted.filled line (by simp [split]) rule.right part

theorem exists_parse_of_accepted (accepted : Accepted (lines text)) : ∃ g, parse text = .ok g := by
  obtain ⟨given, reads⟩ : ∃ given, ReadFrom none (lines text) given := by
    refine exists_readFrom_iff.2 fun above line below split => ?_
    exact Shaped.imp (accepted.shaped above line below split) .inr
  rw [lines, ← pieces_eq_splitOn] at reads
  obtain ⟨rules, shaped⟩ := RuleLine.exists_readAll reads 1
  have reads := readFrom_lines shaped
  obtain ⟨alternatives, read⟩ := exists_alternatives_of_accepted accepted reads
  cases rules with
  | nil => exact absurd (reads.eq_nil_iff.2 rfl) accepted.inhabited
  | cons first others =>
      exact ⟨_, parse_eq_ok_iff.2 ⟨first, others, alternatives, shaped, read, rfl⟩⟩

/-- A text is read exactly if its lines are of the format, and what is read is then the grammar that
they denote. So texts with the same first head and the same bodies for each head are read as the same
grammar, however they are laid out. -/
theorem parse_exact :
    (∀ text, (∃ g, parse text = .ok g) ↔ Accepted (lines text)) ∧
    (∀ text g, parse text = .ok g ↔ Accepted (lines text) ∧ Denotes (lines text) g) ∧
    ∀ text text' g g', parse text = .ok g → parse text' = .ok g' →
      (∀ head, FirstHead (lines text) head ↔ FirstHead (lines text') head) →
      (∀ head b, HasBody (lines text) head b ↔ HasBody (lines text') head b) → g' = g := by
  refine ⟨fun text => ⟨fun ⟨g, done⟩ => accepted_of_parse done, exists_parse_of_accepted⟩,
    fun text g => ⟨fun done => ⟨accepted_of_parse done, denotes_of_parse done⟩, ?_⟩, ?_⟩
  · rintro ⟨accepted, denotes⟩
    obtain ⟨g', done⟩ := exists_parse_of_accepted accepted
    have same := denotes.eq (denotes_of_parse done) (fun _ => Iff.rfl) fun _ _ => Iff.rfl
    rw [done, same]
  · intro text text' g g' done done' first same
    exact (denotes_of_parse done).eq (denotes_of_parse done') first same

/-- A grammar that both of the texts below are read as. -/
def spacedGrammar : Grammar where
  start := "S"
  nonTerminals :=
    .insert (.insert ∅ "S" (.ofProductions "S" (.ofList [["A", "b"], [epsilon], ["S", "S"]]))) "A"
      (.ofProductions "A" (.ofList [["a", "A"], ["a"]]))
  terminals := .ofList ["a", "b"]
  firstFollowValid := false

/-- A text with blank lines, a continuation and marks that stand for nothing. -/
def spacedText : String := "\n  S->A b|& \n \t\n\t| S & S | &\u00a0&\nA -> a A|a\n"

def plainText : String := "S -> S S\r\nA -> a\r\nA -> a A\r\nS -> & | A b"

theorem spacedText_exact :
    Accepted (lines spacedText) ∧ Denotes (lines spacedText) spacedGrammar ∧
      (∀ head b, HasBody (lines spacedText) head b ↔ HasBody (lines plainText) head b) ∧
      ¬ Accepted (lines "| a\nS -> b") ∧ ∀ g, parse plainText = .ok g → g = spacedGrammar := by
  have done : parse spacedText = .ok spacedGrammar := rfl
  have done' : parse plainText = .ok spacedGrammar := rfl
  obtain ⟨accepts, reads, unique⟩ := parse_exact
  obtain ⟨accepted, denotes⟩ := (reads _ _).1 done
  obtain ⟨-, denotes'⟩ := (reads _ _).1 done'
  have same (head : Symbol) (b : Body) :
      HasBody (lines spacedText) head b ↔ HasBody (lines plainText) head b := by
    rw [← denotes.bodies, denotes'.bodies]
  have first (head : Symbol) :
      FirstHead (lines spacedText) head ↔ FirstHead (lines plainText) head :=
    ⟨fun found => found.unique denotes.start ▸ denotes'.start,
      fun found => found.unique denotes'.start ▸ denotes.start⟩
  refine ⟨accepted, denotes, same, fun wrong => ?_, fun g other => ?_⟩
  · obtain ⟨g, read⟩ := (accepts _).2 wrong
    have refused : parse "| a\nS -> b" = .error (.noPreviousLeft 1) := rfl
    rw [refused] at read
    contradiction
  · exact unique _ _ _ _ done other first same

end Grammar

end Predictive
