import Predictive.Proofs.Factoring.Inlining
import Predictive.Proofs.Factoring.Prefix
import Predictive.Proofs.InPlace.Edits

set_option autoImplicit false

namespace Predictive

namespace Grammar

namespace InPlace

/-- Puts the bodies of `inlined` for its first occurrence in the bodies of `head`, one body after
another, unless the two are entangled. -/
def inline (g : Grammar) (head inlined : Symbol) : Except Fault Grammar := do
  let replacements ← g.productions inlined
  if replacements.toList.any fun b => decide (head ∈ b) || decide (inlined ∈ b) then return g
  else
    let bodies ← g.productions head
    let targets := bodies.toList.filter fun b => decide (inlined ∈ b)
    targets.foldlM (fun g b => substitute head g b (expandFirst inlined replacements.toList b)) g

/-- Inlines the other members of a group into `head`, if two bodies of `head` mention the group. -/
def inlineGroup (group : List Symbol) (g : Grammar) (head : Symbol) : Except Fault Grammar := do
  let bodies ← g.productions head
  if bodies.toList.countP (mentions group) < 2 then return g
  else
    let others := group.filter fun name => !decide (name = head)
    others.foldlM (fun g name => inline g head name) g

/-- Inlines the groups that collide now into the non-terminals that are there by then. -/
def inlineCollisions (g : Grammar) : Except Fault Grammar :=
  g.collisions.toList.foldlM (fun g group => g.names.foldlM (inlineGroup group) g) g

/-- Moves a body that holds every symbol of the prefix to `fresh`, less as many symbols. -/
def moveRest (head fresh : Symbol) (shared : Body) (g : Grammar) (b : Body) :
    Except Fault Grammar :=
  if shared.all fun s => decide (s ∈ b) then
    addBody fresh (Body.normalize (b.drop shared.length)) (dropBody head b g)
  else return g

/-- Adds the prefix with a fresh name behind it to `head`, and moves the bodies that hold the symbols
of the prefix. -/
def factor (g : Grammar) (head : Symbol) : Except Fault Grammar := do
  let bodies ← g.productions head
  let candidates := bodies.toList.filter fun b => !Body.isEpsilon b
  let shared := longestCommonPrefix candidates
  if shared.isEmpty then return g
  else
    let fresh := g.freshName head
    let opened ← addBody head (Body.join shared [fresh]) (register fresh g)
    candidates.foldlM (moveRest head fresh shared) opened

def factorAll (g : Grammar) : Except Fault Grammar := g.names.foldlM factor g

def leftFactor (g : Grammar) : Except Fault Grammar := do
  let inlined ← inlineCollisions g
  factorAll inlined

variable {g : Grammar} {head inlined fresh : Symbol}

theorem inline_eq (known : head ∈ g.names) (known' : inlined ∈ g.names) :
    inline g head inlined = .ok (g.inline head inlined) := by
  have unfolded : inline g head inlined =
      if g.isEntangled head inlined then .ok g
      else ((g.bodies head).toList.filter fun b => decide (inlined ∈ b)).foldlM
        (fun h b => substitute head h b (expandFirst inlined (g.bodies inlined).toList b)) g := by
    rw [inline, productions_eq known, productions_eq known']
    rfl
  rw [unfolded, Grammar.inline]
  cases g.isEntangled head inlined with
  | true => rfl
  | false =>
      cases (g.bodies head).toList.filter fun b => decide (inlined ∈ b) with
      | nil => rfl
      | cons c chosen => exact foldlM_substitute known _ c chosen

theorem inlineGroup_eq {group : List Symbol} (known : head ∈ g.names)
    (members : ∀ name ∈ group, name ∈ g.names) :
    inlineGroup group g head = .ok (Grammar.inlineGroup group g head) := by
  have unfolded : inlineGroup group g head =
      if (g.bodies head).toList.countP (mentions group) < 2 then .ok g
      else (group.filter fun name => !decide (name = head)).foldlM
        (fun h name => inline h head name) g := by
    rw [inlineGroup, productions_eq known]
    rfl
  rw [unfolded, Grammar.inlineGroup]
  split
  · rfl
  · refine foldlM_eq_ok_foldl (I := fun h => h.names = g.names) (fun h same name among => ?_) rfl
    have member := members name (List.mem_filter.1 among).1
    exact ⟨inline_eq (same ▸ known) (same ▸ member), names_inline.trans same⟩

theorem names_inlineGroup (group : List Symbol) (g : Grammar) (head : Symbol) :
    (Grammar.inlineGroup group g head).names = g.names := by
  unfold Grammar.inlineGroup
  split
  · rfl
  · exact names_foldl (fun _ _ => names_inline) _ g

theorem foldlM_inlineGroup {group heads : List Symbol} (known : ∀ head ∈ heads, head ∈ g.names)
    (members : ∀ name ∈ group, name ∈ g.names) :
    heads.foldlM (inlineGroup group) g = .ok (heads.foldl (Grammar.inlineGroup group) g) := by
  refine foldlM_eq_ok_foldl (I := fun h => h.names = g.names) (fun h same head among => ?_) rfl
  refine ⟨inlineGroup_eq (same ▸ known head among) (same ▸ members), ?_⟩
  rw [names_inlineGroup, same]

theorem inlineCollisions_eq (held : g.Named) : inlineCollisions g = .ok g.inlineCollisions := by
  refine foldlM_eq_ok_foldl (I := fun h => h.names = g.names) (fun h same group collides => ?_) rfl
  have members := mem_names_of_mem_collisions held (OrderedSet.mem_toList.1 collides)
  refine ⟨foldlM_inlineGroup (fun _ named => named) (same ▸ members), ?_⟩
  rw [names_foldl (names_inlineGroup group), same]

theorem foldlM_moveRest (known : head ∈ g.names) (apart : head ≠ fresh) (shared : Body)
    (l : List Body) (kept rests : OrderedSet Body) :
    l.foldlM (moveRest head fresh shared) ((g.setBodies head kept).addNonTerminal fresh rests) =
      let factored := l.filter fun b => shared.all fun s => decide (s ∈ b)
      .ok ((g.setBodies head (factored.foldl OrderedSet.erase kept)).addNonTerminal fresh
        (rests.insertMany (factored.map fun b => Body.normalize (b.drop shared.length)))) := by
  induction l generalizing kept rests with
  | nil => rfl
  | cons b l ih =>
      rw [List.foldlM_cons, moveRest]
      cases holds : shared.all fun s => decide (s ∈ b) with
      | false =>
          rw [List.filter_cons_of_neg (by simp [holds])]
          exact ih kept rests
      | true =>
          have here : ((g.setBodies head kept).addNonTerminal fresh rests).bodies head = kept := by
            rw [bodies_setBodies_addNonTerminal known, if_neg apart, if_pos rfl]
          have dropped : dropBody head b ((g.setBodies head kept).addNonTerminal fresh rests) =
              (g.setBodies head (kept.erase b)).addNonTerminal fresh rests := by
            rw [dropBody, here, setBodies_addNonTerminal apart, setBodies_setBodies]
          rw [List.filter_cons_of_pos (by simp [holds]), if_pos rfl, dropped,
            addBody_eq (mem_names_addNonTerminal.2 (.inl rfl)), bodies_addNonTerminal, if_pos rfl,
            addNonTerminal_setBodies]
          exact ih (kept.erase b) _

theorem factor_eq (known : head ∈ g.names) : factor g head = .ok (g.factor head) := by
  have unfolded : factor g head =
      if (g.sharedPrefix head).isEmpty then .ok g
      else
        addBody head (Body.join (g.sharedPrefix head) [g.freshName head])
          (register (g.freshName head) g) >>= fun opened =>
          (g.candidates head).foldlM (moveRest head (g.freshName head) (g.sharedPrefix head))
            opened := by
    rw [factor, productions_eq known]
    rfl
  rw [unfolded, Grammar.factor]
  cases (g.sharedPrefix head).isEmpty with
  | true => rfl
  | false =>
      have free : g.freshName head ∉ g.names := fun named =>
        g.freshName_not_mem_allSymbols head (mem_allSymbols.2 (.inl named))
      have apart : head ≠ g.freshName head := fun same => free (same ▸ known)
      have opened : addBody head (Body.join (g.sharedPrefix head) [g.freshName head])
          (register (g.freshName head) g) =
          .ok ((g.setBodies head ((g.bodies head).insert
            (Body.join (g.sharedPrefix head) [g.freshName head]))).addNonTerminal
              (g.freshName head) ∅) := by
        rw [register_eq free, addBody_eq (mem_names_addNonTerminal.2 (.inr known)),
          bodies_addNonTerminal, if_neg apart, setBodies_addNonTerminal apart]
      rw [opened]
      exact foldlM_moveRest known apart (g.sharedPrefix head) (g.candidates head) _ ∅

theorem mem_names_factor {name : Symbol} (named : name ∈ g.names) :
    name ∈ (g.factor head).names := by
  unfold Grammar.factor
  split
  · exact named
  · rw [factorInto, mem_names_addNonTerminal, names_setBodies]
    exact .inr named

theorem factorAll_eq (g : Grammar) : factorAll g = .ok g.factorAll := by
  refine foldlM_eq_ok_foldl (I := fun h => ∀ name ∈ g.names, name ∈ h.names)
    (fun h kept head named => ?_) (fun _ named => named)
  exact ⟨factor_eq (kept head named), fun name old => mem_names_factor (kept name old)⟩

/-- The edits come to what the pass answers if the names that the collisions are told by are keys. -/
theorem leftFactor_eq (held : g.Named) : leftFactor g = .ok g.leftFactor := by
  rw [leftFactor, inlineCollisions_eq held]
  exact factorAll_eq g.inlineCollisions

end InPlace

end Grammar

end Predictive
