import Predictive.Proofs.Derivation.Language
import Predictive.Proofs.Grammar.Introduction

set_option autoImplicit false

namespace Predictive

namespace Grammar

variable {g g' : Grammar} {head fresh : Symbol} {X : List Symbol → Prop}

/-- The fresh symbol stands for what `X` allows, and every other for what it derives. -/
def Standing (g : Grammar) (fresh : Symbol) (X : List Symbol → Prop) (s : Symbol)
    (v : List Symbol) : Prop :=
  if s = fresh then X v else g.Derives [s] v

theorem standing_fresh {v : List Symbol} : g.Standing fresh X fresh v ↔ X v := by
  rw [Standing, if_pos rfl]

theorem derives_of_reads_standing {u v : List Symbol} (without : fresh ∉ u)
    (read : Reads (g.Standing fresh X) u v) : g.Derives u v := by
  refine reads_derives_iff.1 (read.imp fun s inside v meant => ?_)
  have other : s ≠ fresh := fun same => without (same ▸ inside)
  rwa [Standing, if_neg other] at meant

/-- The grammar with the fresh non-terminal derives nothing new from the old ones, if the bodies of
the two changed non-terminals stand for no more than these do. -/
theorem Introduces.derives_of_derives (introduces : g.Introduces g' head fresh)
    (valid : g.WellFormed)
    (headBody : ∀ b ∈ g'.bodies head, ∀ v, Reads (g.Standing fresh X) (Body.symbols b) v →
      g.Derives [head] v)
    (freshBody : ∀ b ∈ g'.bodies fresh, ∀ v, Reads (g.Standing fresh X) (Body.symbols b) v → X v)
    {name : Symbol} (named : name ∈ g.names) {w : List Symbol} (derived : g'.Derives [name] w)
    (terminal : g'.TerminalString w) : g.Derives [name] w := by
  have old : ∀ s ∈ g.allSymbols, s ≠ fresh := fun _ => introduces.ne_fresh_of_mem
  have meaning : g'.Interprets (g.Standing fresh X) :=
    { self := fun s inside => by
        rw [introduces.terminals] at inside
        rw [Standing, if_neg (old s (mem_allSymbols.2 (.inr inside)))]
        exact Derives.refl g [s]
      body := fun s b inside v _ read => by
        by_cases isFresh : s = fresh
        · subst isFresh
          exact standing_fresh.2 (freshBody b inside v read)
        · rw [Standing, if_neg isFresh]
          by_cases isHead : s = head
          · subst isHead
            exact headBody b inside v read
          · rw [introduces.bodies s isHead isFresh] at inside
            have without := introduces.not_mem_symbols valid inside
            exact derives_of_mem_bodies inside (derives_of_reads_standing without read) }
  refine derives_of_reads_standing (fun inside => ?_) (meaning.reads derived terminal)
  exact old name (mem_allSymbols.2 (.inl named)) (List.mem_singleton.1 inside).symm

end Grammar

end Predictive
