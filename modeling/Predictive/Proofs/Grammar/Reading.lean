import Predictive.Grammar.Reader
import Predictive.Proofs.Collection.Traversal
import Predictive.Proofs.Grammar.WellFormed

set_option autoImplicit false

namespace Predictive

namespace RuleLine

/-- Neither of the marks. -/
def Proper (head : Symbol) : Prop := head ≠ epsilon ∧ head ≠ endMark

theorem proper_of_read {previous : Option Symbol} {line : Nat} {text : List Char} {rule : RuleLine}
    (before : ∀ head ∈ previous, Proper head) (done : read previous line text = .ok rule) :
    Proper rule.head := by
  unfold read at done
  split at done
  · split at done
    · contradiction
    · rename_i word _
      simp only at done
      split at done
      · contradiction
      · rename_i proper
        obtain rfl := Except.ok.inj done
        exact not_or.1 proper
    · contradiction
  · split at done
    · rename_i head _
      obtain rfl := Except.ok.inj done
      exact before head rfl
    · contradiction
    · contradiction
  · contradiction

theorem proper_of_readAll {previous : Option Symbol} {line : Nat} {texts : List (List Char)}
    {rules : List RuleLine} (before : ∀ head ∈ previous, Proper head)
    (done : readAll previous line texts = .ok rules) : ∀ rule ∈ rules, Proper rule.head := by
  induction texts generalizing previous line rules with
  | nil =>
      obtain rfl := Except.ok.inj done
      simp
  | cons text rest ih =>
      rw [readAll] at done
      split at done
      · exact ih before done
      · obtain ⟨rule, first, done⟩ := bind_eq_ok_iff.1 done
        obtain ⟨others, later, done⟩ := bind_eq_ok_iff.1 done
        obtain rfl := pure_eq_ok_iff.1 done
        have proper := proper_of_read before first
        refine List.forall_mem_cons.2 ⟨proper, ih (fun head same => ?_) later⟩
        obtain rfl := Option.some.inj same
        exact proper

theorem not_mem_of_readAlternative {line : Nat} {text : List Char} {symbols : List Symbol}
    (done : readAlternative line text = .ok symbols) : endMark ∉ symbols := by
  unfold readAlternative at done
  simp only at done
  split at done
  · contradiction
  · split at done
    · contradiction
    · rename_i without
      obtain rfl := Except.ok.inj done
      exact without

theorem alternatives_spec {rule : RuleLine} {alternatives : List (Symbol × List Symbol)}
    (done : rule.alternatives = .ok alternatives) :
    (∃ a ∈ alternatives, a.1 = rule.head) ∧
      ∀ a ∈ alternatives, a.1 = rule.head ∧ endMark ∉ a.2 := by
  have all : ∀ a ∈ alternatives, a.1 = rule.head ∧ endMark ∉ a.2 := by
    intro a inside
    obtain ⟨text, -, made⟩ := (mapM_eq_ok done).1 a inside
    obtain ⟨symbols, read, made⟩ := bind_eq_ok_iff.1 made
    obtain rfl := pure_eq_ok_iff.1 made
    exact ⟨rfl, not_mem_of_readAlternative read⟩
  obtain ⟨text, inside⟩ := List.exists_mem_of_ne_nil _ (Text.pieces_ne_nil '|' rule.right)
  obtain ⟨a, within, -⟩ := (mapM_eq_ok done).2 text inside
  exact ⟨⟨a, within, (all a within).1⟩, all⟩

end RuleLine

namespace Grammar

theorem mem_names_ofAlternatives {start name : Symbol}
    {alternatives : List (Symbol × List Symbol)} :
    name ∈ (ofAlternatives start alternatives).names ↔ ∃ a ∈ alternatives, a.1 = name := by
  rw [names, ofAlternatives, OrderedMap.keys_tabulate, OrderedSet.mem_toList, OrderedSet.mem_ofList,
    List.mem_map]

theorem mem_terminals_ofAlternatives {start s : Symbol}
    {alternatives : List (Symbol × List Symbol)} :
    s ∈ (ofAlternatives start alternatives).terminals ↔
      (∃ a ∈ alternatives, s ∈ a.2) ∧ s ≠ epsilon ∧
        s ∉ (ofAlternatives start alternatives).names := by
  rw [mem_names_ofAlternatives]
  simp [ofAlternatives, OrderedSet.mem_ofList]

theorem mem_bodies_ofAlternatives {start name : Symbol} {alternatives : List (Symbol × List Symbol)}
    {b : Body} : b ∈ (ofAlternatives start alternatives).bodies name ↔
      ∃ a ∈ alternatives, a.1 = name ∧ b = Body.normalize a.2 := by
  unfold bodies
  rw [ofAlternatives, OrderedMap.get?_tabulate]
  by_cases headed : name ∈ OrderedSet.ofList (alternatives.map Prod.fst)
  · rw [if_pos headed]
    simp only [NonTerminal.ofProductions, bodiesOf, OrderedSet.mem_ofList, List.mem_map,
      List.mem_filter, decide_eq_true_eq, and_assoc]
    exact exists_congr fun a => and_congr_right fun _ => and_congr_right fun _ => eq_comm
  · rw [if_neg headed]
    rw [OrderedSet.mem_ofList, List.mem_map] at headed
    refine iff_of_false (OrderedSet.not_mem_empty b) ?_
    intro found
    rcases found with ⟨a, within, same, -⟩
    exact headed ⟨a, within, same⟩

theorem named_ofAlternatives {start : Symbol} {alternatives : List (Symbol × List Symbol)} :
    (ofAlternatives start alternatives).Named := by
  intro key entry found
  rw [ofAlternatives, OrderedMap.get?_tabulate] at found
  split at found
  case isTrue =>
    obtain rfl := Option.some.inj found
    rfl
  case isFalse => contradiction

theorem wellFormed_ofAlternatives {start : Symbol} {alternatives : List (Symbol × List Symbol)}
    (headed : ∃ a ∈ alternatives, a.1 = start)
    (proper : ∀ a ∈ alternatives, RuleLine.Proper a.1 ∧ endMark ∉ a.2) :
    (ofAlternatives start alternatives).WellFormed where
  named := named_ofAlternatives
  start := mem_names_ofAlternatives.2 headed
  disjoint s named terminal := (mem_terminals_ofAlternatives.1 terminal).2.2 named
  noEpsilon inside := by
    rcases mem_allSymbols.1 inside with named | terminal
    · obtain ⟨a, within, same⟩ := mem_names_ofAlternatives.1 named
      exact (proper a within).1.1 same
    · exact (mem_terminals_ofAlternatives.1 terminal).2.1 rfl
  noEndMark inside := by
    rcases mem_allSymbols.1 inside with named | terminal
    · obtain ⟨a, within, same⟩ := mem_names_ofAlternatives.1 named
      exact (proper a within).1.2 same
    · obtain ⟨⟨a, within, mark⟩, -, -⟩ := mem_terminals_ofAlternatives.1 terminal
      exact (proper a within).2 mark
  inhabited name named := by
    obtain ⟨a, within, same⟩ := mem_names_ofAlternatives.1 named
    exact ⟨_, mem_bodies_ofAlternatives.2 ⟨a, within, same, rfl⟩⟩
  fits name b inside := by
    obtain ⟨a, within, -, rfl⟩ := mem_bodies_ofAlternatives.1 inside
    refine fits_normalize fun s among => mem_allSymbols.2 ?_
    obtain ⟨listed, other⟩ := Body.mem_symbols.1 among
    by_cases named : s ∈ (ofAlternatives start alternatives).names
    · exact .inl named
    · exact .inr (mem_terminals_ofAlternatives.2 ⟨⟨a, within, listed⟩, other, named⟩)

theorem parse_eq_ok_iff {text : String} {g : Grammar} : parse text = .ok g ↔ ∃ first others alternatives,
    RuleLine.readAll none 1 (Text.pieces '\n' text.toList) = .ok (first :: others) ∧
      (first :: others).mapM RuleLine.alternatives = .ok alternatives ∧
      ofAlternatives first.head alternatives.flatten = g := by
  rw [parse, bind_eq_ok_iff]
  constructor
  · rintro ⟨rules, shaped, done⟩
    cases rules with
    | nil => contradiction
    | cons first others =>
        obtain ⟨alternatives, read, done⟩ := bind_eq_ok_iff.1 done
        exact ⟨first, others, alternatives, shaped, read, pure_eq_ok_iff.1 done⟩
  · rintro ⟨first, others, alternatives, shaped, read, rfl⟩
    exact ⟨_, shaped, bind_eq_ok_iff.2 ⟨alternatives, read, rfl⟩⟩

theorem wellFormed_of_parse {text : String} {g : Grammar} (done : parse text = .ok g) :
    g.WellFormed ∧ g.firstFollowValid = false := by
  obtain ⟨first, others, alternatives, lines, read, rfl⟩ := parse_eq_ok_iff.1 done
  have proper := RuleLine.proper_of_readAll (by simp) lines
  refine ⟨wellFormed_ofAlternatives ?_ fun a inside => ?_, rfl⟩
  · obtain ⟨own, inside, made⟩ := (mapM_eq_ok read).2 first List.mem_cons_self
    obtain ⟨⟨a, within, same⟩, -⟩ := RuleLine.alternatives_spec made
    exact ⟨a, List.mem_flatten.2 ⟨own, inside, within⟩, same⟩
  · obtain ⟨ofRule, listed, within⟩ := List.mem_flatten.1 inside
    obtain ⟨rule, among, made⟩ := (mapM_eq_ok read).1 ofRule listed
    obtain ⟨same, without⟩ := (RuleLine.alternatives_spec made).2 a within
    exact ⟨same ▸ proper rule among, without⟩

end Grammar

end Predictive
