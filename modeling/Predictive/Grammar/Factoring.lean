import Predictive.Body.CommonPrefix
import Predictive.Grammar.LeftRecursion

set_option autoImplicit false

namespace Predictive

/-- The body with each of `replacements` in place of the first occurrence of `name`. -/
def expandFirst (name : Symbol) (replacements : List Body) (b : Body) : List Body :=
  let before := b.takeWhile fun s => !decide (s = name)
  let after := (b.dropWhile fun s => !decide (s = name)).tail
  replacements.map fun r => Body.join (Body.join before r) after

namespace Grammar

/-- The names of the non-terminals with a body that begins with `terminal`. -/
def namesStarting (g : Grammar) (terminal : Symbol) : List Symbol :=
  let starting := g.entries.filter fun entry =>
    entry.productions.toList.any (Body.startsWith terminal)
  (OrderedSet.ofList (starting.map NonTerminal.name)).toList

/-- The groups of two or more non-terminals with bodies that begin with one terminal. -/
def collisions (g : Grammar) : OrderedSet (List Symbol) :=
  .ofList ((g.terminals.toList.map g.namesStarting).filter fun group => decide (1 < group.length))

/-- Whether a body of `inlined` mentions `inlined` or `head`; every later inlining would copy such a
body again. -/
def isEntangled (g : Grammar) (head inlined : Symbol) : Bool :=
  (g.bodies inlined).toList.any fun b => decide (head ∈ b) || decide (inlined ∈ b)

/-- Puts every body of `inlined` for its first occurrence in the bodies of `head`, unless the two
are entangled. -/
def inline (g : Grammar) (head inlined : Symbol) : Grammar :=
  let targets := (g.bodies head).toList.filter fun b => decide (inlined ∈ b)
  if g.isEntangled head inlined || targets.isEmpty then g
  else
    let expand := expandFirst inlined (g.bodies inlined).toList
    g.setBodies head (replaceBodies (g.bodies head) targets expand)

/-- Whether the body mentions a member of the group. -/
def mentions (group : List Symbol) (b : Body) : Bool := group.any fun name => decide (name ∈ b)

/-- Inlines the other members of a group into `head`, if two bodies of `head` mention the group. -/
def inlineGroup (group : List Symbol) (g : Grammar) (head : Symbol) : Grammar :=
  if (g.bodies head).toList.countP (mentions group) < 2 then g
  else (group.filter fun name => !decide (name = head)).foldl (fun g name => g.inline head name) g

/-- Inlines the groups that collide now, one after another. -/
def inlineCollisions (g : Grammar) : Grammar :=
  g.collisions.toList.foldl (fun g group => g.names.foldl (inlineGroup group) g) g

/-- The bodies of `head` that may be factored: all but the empty one. -/
def candidates (g : Grammar) (head : Symbol) : List Body :=
  (g.bodies head).toList.filter fun b => !Body.isEpsilon b

/-- The longest beginning that two bodies of `head` share. -/
def sharedPrefix (g : Grammar) (head : Symbol) : Body := longestCommonPrefix (g.candidates head)

/-- The bodies that are factored: those that hold every symbol of the prefix, wherever it stands. -/
def factoredBodies (g : Grammar) (head : Symbol) : List Body :=
  (g.candidates head).filter fun b => (g.sharedPrefix head).all fun s => decide (s ∈ b)

/-- Puts the shared prefix before `fresh` in place of the factored bodies, and adds `fresh` with
what they have behind as many symbols. -/
def factorInto (g : Grammar) (head fresh : Symbol) : Grammar :=
  let shared := g.sharedPrefix head
  let factored := g.factoredBodies head
  let kept := factored.foldl OrderedSet.erase ((g.bodies head).insert (Body.join shared [fresh]))
  let rests := factored.map fun b => Body.normalize (b.drop shared.length)
  (g.setBodies head kept).addNonTerminal fresh (.ofList rests)

/-- Factors the bodies of `head`, if two of them begin alike. -/
def factor (g : Grammar) (head : Symbol) : Grammar :=
  if (g.sharedPrefix head).isEmpty then g else g.factorInto head (g.freshName head)

/-- Factors the bodies of every non-terminal that is there at the beginning. -/
def factorAll (g : Grammar) : Grammar := g.names.foldl factor g

/-- One round of left factoring. -/
def leftFactor (g : Grammar) : Grammar := g.inlineCollisions.factorAll

end Grammar

end Predictive
