import Predictive.Proofs.Derivation.Productivity
import Predictive.Proofs.FirstFollow.Following

set_option autoImplicit false

/-
Where two bodies of a non-terminal part. A grammar is separated if no lookahead calls for both of
what two bodies have left behind a shared beginning. Grammars without common lookaheads are
(`Deterministic.separated`), and a separated grammar has common lookaheads only where a shared
beginning stands for something (`Separated.deterministic_iff`).
-/

namespace Predictive

namespace Grammar

variable {g g' : Grammar} {head head' t : Symbol} {u v w x y : List Symbol}

/-- No lookahead calls for both forms as expansions of `head`. -/
def Disjoint (g : Grammar) (head : Symbol) (u v : List Symbol) : Prop :=
  ∀ t, ¬ (g.Predicts head u t ∧ g.Predicts head v t)

/-- Behind a beginning that the forms share, and that goes no further, no lookahead calls for
both. -/
def Apart (g : Grammar) (head : Symbol) (u v : List Symbol) : Prop :=
  ∀ shared x y, u = shared ++ x → v = shared ++ y → x.head? ≠ y.head? → g.Disjoint head x y

theorem Disjoint.symm (disjoint : g.Disjoint head u v) : g.Disjoint head v u :=
  fun t both => disjoint t both.symm

theorem Disjoint.imp (disjoint : g.Disjoint head u v)
    (left : ∀ t, g'.Predicts head' x t → g.Predicts head u t)
    (right : ∀ t, g'.Predicts head' y t → g.Predicts head v t) : g'.Disjoint head' x y :=
  fun t both => disjoint t ⟨left t both.1, right t both.2⟩

theorem Apart.symm (apart : g.Apart head u v) : g.Apart head v u :=
  fun shared x y left right differ => (apart shared y x right left differ.symm).symm

theorem apart_self (g : Grammar) (head : Symbol) (u : List Symbol) : g.Apart head u u := by
  intro shared x y left right differ
  rw [left] at right
  exact absurd (congrArg List.head? (List.append_cancel_left right)) differ

theorem apart_append_left_iff : g.Apart head (w ++ u) (w ++ v) ↔ g.Apart head u v := by
  constructor
  · intro apart shared x y left right differ
    exact apart (w ++ shared) x y (by rw [left, List.append_assoc]) (by rw [right, List.append_assoc])
      differ
  · intro apart shared x y left right differ
    rcases List.append_eq_append_iff.1 left with ⟨more, rfl, split⟩ | ⟨less, rfl, rfl⟩
    · rw [List.append_assoc] at right
      exact apart more x y split (List.append_cancel_left right) differ
    · rw [List.append_assoc] at right
      obtain rfl := List.append_cancel_left right
      cases less with
      | nil => exact apart [] u v rfl rfl differ
      | cons s less => exact absurd rfl differ

theorem exists_shared (u v : List Symbol) : ∃ shared x y, u = shared ++ x ∧ v = shared ++ y ∧
    (x.head? ≠ y.head? ∨ x = [] ∧ y = []) := by
  induction u generalizing v with
  | nil =>
      cases v with
      | nil => exact ⟨[], [], [], rfl, rfl, .inr ⟨rfl, rfl⟩⟩
      | cons r v => exact ⟨[], [], r :: v, rfl, rfl, .inl (by simp)⟩
  | cons s u ih =>
      cases v with
      | nil => exact ⟨[], s :: u, [], rfl, rfl, .inl (by simp)⟩
      | cons r v =>
          by_cases same : s = r
          · subst same
            obtain ⟨shared, x, y, rfl, rfl, parted⟩ := ih v
            exact ⟨s :: shared, x, y, rfl, rfl, parted⟩
          · exact ⟨[], s :: u, r :: v, rfl, rfl, .inl (by simpa using same)⟩

section Productive

variable (productive : g.Productive)

include productive

/-- Forms without a common lookahead are apart: a beginning that they share stands for nothing, as
whatever opens it would be common. -/
theorem Disjoint.apart (disjoint : g.Disjoint head u v) (known : ∀ s ∈ u, s ∈ g.allSymbols) :
    g.Apart head u v := by
  intro shared x y left right _ t both
  subst left right
  have known' : ∀ s ∈ shared, s ∈ g.allSymbols := fun s among =>
    known s (List.mem_append_left x among)
  by_cases empty : g.Derives shared []
  · refine disjoint t ⟨?_, ?_⟩
    · exact predicts_append_iff.2 (.inr ⟨empty, both.1⟩)
    · exact predicts_append_iff.2 (.inr ⟨empty, both.2⟩)
  · have opened : ∃ s, g.Opens shared s := by
      by_contra closed
      exact empty (productive.derives_nil_of_not_opens known' (not_exists.1 closed))
    obtain ⟨s, opens⟩ := opened
    exact disjoint s ⟨predicts_append_iff.2 (.inl opens), predicts_append_iff.2 (.inl opens)⟩

theorem Apart.replace {shared x' y' : List Symbol}
    (apart : g.Apart head (shared ++ x) (shared ++ y)) (differ : x.head? ≠ y.head?)
    (left : ∀ t, g.Predicts head x' t → g.Predicts head x t)
    (right : ∀ t, g.Predicts head y' t → g.Predicts head y t)
    (known : ∀ s ∈ x', s ∈ g.allSymbols) : g.Apart head (shared ++ x') (shared ++ y') := by
  have parted := apart shared x y rfl rfl differ
  rw [apart_append_left_iff]
  exact (parted.imp left right).apart productive known

end Productive

section Transfer

variable (valid : g.WellFormed) (preserved : g.Preserves g') (productive : g.Productive)
  (productive' : g'.Productive)

include valid preserved productive productive'

theorem Preserves.called_iff {P : Prop} (known : ∀ s ∈ u, s ∈ g.allSymbols) :
    (g'.Opens u t ∨ g'.Derives u [] ∧ P) ↔ (g.Opens u t ∨ g.Derives u [] ∧ P) := by
  rw [preserved.opens_iff valid productive productive' known, preserved.derives_nil_iff valid known]

theorem Preserves.follows_of_called {b : Body} {name : Symbol} {front rest : List Symbol}
    (inside : b ∈ g.bodies head) (split : Body.symbols b = front ++ name :: rest)
    (called : g'.Opens rest t ∨ g'.Derives rest [] ∧ g.Follows head t) : g.Follows name t := by
  rw [preserved.called_iff valid productive productive' (valid.known_around inside split).2] at called
  exact follows_of_predicts inside split called

variable (follows : ∀ t, g'.Follows head' t → g.Follows head t)

include follows

theorem Preserves.predicts (known : ∀ s ∈ u, s ∈ g.allSymbols) (called : g'.Predicts head' u t) :
    g.Predicts head u t := by
  rw [Predicts, preserved.called_iff valid productive productive' known] at called
  exact called.imp_right (And.imp_right (follows t))

theorem Preserves.apart (knownLeft : ∀ s ∈ u, s ∈ g.allSymbols)
    (knownRight : ∀ s ∈ v, s ∈ g.allSymbols) (apart : g.Apart head u v) : g'.Apart head' u v := by
  intro shared x y left right differ
  have old {w : List Symbol} (known : ∀ s ∈ shared ++ w, s ∈ g.allSymbols) (t : Symbol) :
      g'.Predicts head' w t → g.Predicts head w t :=
    preserved.predicts valid productive productive' follows fun s among =>
      known s (List.mem_append_right shared among)
  exact (apart shared x y left right differ).imp (old (left ▸ knownLeft)) (old (right ▸ knownRight))

end Transfer

/-- A grammar whose non-terminals all stand for something, and the bodies of which part. -/
structure Separated (g : Grammar) : Prop where
  productive : g.Productive
  apart : ∀ head, ∀ b ∈ g.bodies head, ∀ b' ∈ g.bodies head,
    g.Apart head (Body.symbols b) (Body.symbols b')

theorem SameRules.separated (same : g.SameRules g') (separated : g.Separated) : g'.Separated where
  productive name named := by
    rw [same.names] at named
    obtain ⟨w, plain, derived⟩ := separated.productive name named
    refine ⟨w, ?_, same.derives derived⟩
    rwa [TerminalString, same.terminals]
  apart head b inside b' inside' shared x y left right differ := by
    rw [same.bodies] at inside inside'
    have back {u : List Symbol} (t : Symbol) (called : g'.Predicts head u t) :
        g.Predicts head u t :=
      called.imp same.symm.opens (And.imp same.symm.derives same.symm.follows)
    exact (separated.apart head b inside b' inside' shared x y left right differ).imp back back

/-- No lookahead calls for two bodies of one non-terminal. -/
def Deterministic (g : Grammar) : Prop :=
  ∀ head, ∀ b ∈ g.bodies head, ∀ b' ∈ g.bodies head, b ≠ b' →
    g.Disjoint head (Body.symbols b) (Body.symbols b')

theorem Deterministic.separated (deterministic : g.Deterministic) (valid : g.WellFormed)
    (productive : g.Productive) : g.Separated where
  productive := productive
  apart head b inside b' inside' := by
    by_cases same : b = b'
    · subst same
      exact apart_self g head _
    · have disjoint := deterministic head b inside b' inside' same
      exact disjoint.apart productive (valid.fits head b inside).2

/-- Whether whatever two bodies of a non-terminal begin with alike stands for nothing. -/
def SharesNothing (g : Grammar) : Prop :=
  ∀ head, ∀ b ∈ g.bodies head, ∀ b' ∈ g.bodies head, b ≠ b' → ∀ shared, shared <+: b →
    shared <+: b' → ∀ w, g.TerminalString w → g.Derives shared w → w = []

/-- A separated grammar is deterministic if, and only if, its bodies share nothing. -/
theorem Separated.deterministic_iff (separated : g.Separated) (valid : g.WellFormed) :
    g.Deterministic ↔ g.SharesNothing := by
  constructor
  · intro deterministic head b inside b' inside' other shared begins begins' w plain derived
    cases w with
    | nil => rfl
    | cons t w =>
        have opens : g.Opens shared t := ⟨plain t List.mem_cons_self, w, derived⟩
        have clean := (valid.fits head b inside).symbols_shared (valid.fits head b' inside') other
          begins begins'
        have called : ∀ c, shared <+: c → g.Predicts head (Body.symbols c) t := by
          intro c front
          obtain ⟨rest, rfl⟩ := front
          rw [Body.symbols_append, clean]
          exact predicts_append_iff.2 (.inl opens)
        have both := deterministic head b inside b' inside' other t
        exact absurd ⟨called b begins, called b' begins'⟩ both
  · intro nothing head b inside b' inside' other t both
    have fit := valid.fits head b inside
    have fit' := valid.fits head b' inside'
    obtain ⟨shared, x, y, left, right, parted⟩ := exists_shared (Body.symbols b) (Body.symbols b')
    rcases parted with differ | ⟨rfl, rfl⟩
    · have known : ∀ s ∈ shared, s ∈ g.allSymbols := by
        intro s among
        apply fit.2
        rw [left]
        exact List.mem_append_left x among
      have closed : ∀ s, ¬ g.Opens shared s := by
        intro s opens
        obtain ⟨w, plain, derived⟩ := separated.productive.exists_derives_cons known valid opens
        have empty := nothing head b inside b' inside' other shared (fit.isPrefix_of_symbols left)
          (fit'.isPrefix_of_symbols right) _ plain derived
        contradiction
      rw [left, right, predicts_append_iff, predicts_append_iff] at both
      obtain ⟨-, one⟩ := both.1.resolve_left (closed t)
      obtain ⟨-, two⟩ := both.2.resolve_left (closed t)
      exact separated.apart head b inside b' inside' shared x y left right differ t ⟨one, two⟩
    · exact other (fit.eq_of_symbols fit' (left.trans right.symm))

end Grammar

end Predictive
