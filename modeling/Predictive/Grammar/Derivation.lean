import Predictive.Grammar.Basic

set_option autoImplicit false

namespace Predictive

namespace Grammar

/-- `Derives g u v`: the form `u` becomes `v` by zero or more expansions of non-terminals. -/
inductive Derives (g : Grammar) : List Symbol → List Symbol → Prop where
  | nil : Derives g [] []
  | keep {u v : List Symbol} (s : Symbol) (rest : Derives g u v) : Derives g (s :: u) (s :: v)
  | expand {name : Symbol} {body : Body} {u v w : List Symbol} (inside : body ∈ g.bodies name)
      (front : Derives g (Body.symbols body) v) (rest : Derives g u w) :
      Derives g (name :: u) (v ++ w)

/-- `Generates g name w`: `name` derives `w`, and `w` holds no non-terminal. -/
def Generates (g : Grammar) (name : Symbol) (w : List Symbol) : Prop :=
  g.Derives [name] w ∧ ∀ s ∈ w, ¬ s ∈ g.nonTerminals

variable {g : Grammar}

theorem Derives.refl (g : Grammar) (u : List Symbol) : g.Derives u u := by
  induction u with
  | nil => exact .nil
  | cons s u ih => exact .keep s ih

theorem Derives.append {u₁ u₂ v₁ v₂ : List Symbol} (left : g.Derives u₁ v₁)
    (right : g.Derives u₂ v₂) : g.Derives (u₁ ++ u₂) (v₁ ++ v₂) := by
  induction left with
  | nil => exact right
  | keep s _ ih => exact .keep s ih
  | expand inside front _ _ ih =>
      rw [List.append_assoc]
      exact .expand inside front ih

theorem derives_nil_iff {v : List Symbol} : g.Derives [] v ↔ v = [] := by
  constructor
  · intro derived
    cases derived
    rfl
  · rintro rfl
    exact .nil

theorem derives_append_iff {u₁ u₂ v : List Symbol} :
    g.Derives (u₁ ++ u₂) v ↔ ∃ v₁ v₂, v = v₁ ++ v₂ ∧ g.Derives u₁ v₁ ∧ g.Derives u₂ v₂ := by
  constructor
  · intro derived
    induction u₁ generalizing v with
    | nil => exact ⟨[], v, rfl, .nil, derived⟩
    | cons s u₁ ih =>
        cases derived with
        | keep _ rest =>
          obtain ⟨v₁, v₂, rfl, left, right⟩ := ih rest
          exact ⟨s :: v₁, v₂, rfl, .keep s left, right⟩
        | @expand _ body _ v w inside front rest =>
          obtain ⟨v₁, v₂, rfl, left, right⟩ := ih rest
          exact ⟨v ++ v₁, v₂, by rw [List.append_assoc], .expand inside front left, right⟩
  · rintro ⟨v₁, v₂, rfl, left, right⟩
    exact left.append right

theorem Derives.trans {u v w : List Symbol} (first : g.Derives u v) (second : g.Derives v w) :
    g.Derives u w := by
  induction first generalizing w with
  | nil => exact second
  | @keep u v s _ ih =>
      have split : g.Derives ([s] ++ v) w := second
      obtain ⟨w₁, w₂, rfl, left, right⟩ := derives_append_iff.1 split
      exact left.append (ih right)
  | expand inside _ _ ih_front ih_rest =>
      obtain ⟨w₁, w₂, rfl, left, right⟩ := derives_append_iff.1 second
      exact .expand inside (ih_front left) (ih_rest right)

theorem Derives.inside {name : Symbol} {u v front back : List Symbol}
    (outer : g.Derives u (front ++ name :: back)) (inner : g.Derives [name] v) :
    g.Derives u (front ++ (v ++ back)) :=
  outer.trans ((Derives.refl g front).append (inner.append (Derives.refl g back)))

theorem derives_of_mem_bodies {name : Symbol} {body : Body} {v : List Symbol}
    (inside : body ∈ g.bodies name) (derived : g.Derives (Body.symbols body) v) :
    g.Derives [name] v := by
  have := Derives.expand inside derived .nil
  rwa [List.append_nil] at this

theorem Derives.inside_body {name : Symbol} {body : Body} {u front back : List Symbol}
    (outer : g.Derives u (front ++ name :: back)) (inside : body ∈ g.bodies name) :
    g.Derives u (front ++ (Body.symbols body ++ back)) :=
  outer.inside (derives_of_mem_bodies inside (Derives.refl g _))

end Grammar

end Predictive
