import Predictive.Proofs.Derivation.Unfolding
import Predictive.Proofs.Prediction.Parting

set_option autoImplicit false

namespace Predictive

theorem occurrence_append {α : Type} {u v front rest : List α} {s : α}
    (split : u ++ v = front ++ s :: rest) :
    (∃ mid, u = front ++ s :: mid ∧ rest = mid ++ v) ∨
      ∃ mid, front = u ++ mid ∧ v = mid ++ s :: rest := by
  rcases List.append_eq_append_iff.1 split with ⟨mid, rfl, behind⟩ | ⟨mid, rfl, behind⟩
  · exact .inr ⟨mid, rfl, behind⟩
  · cases mid with
    | nil => exact .inr ⟨[], by simp, behind.symm⟩
    | cons r mid =>
        obtain ⟨rfl, rfl⟩ := List.cons.inj behind
        exact .inl ⟨mid, rfl, rfl⟩

theorem occurrence_append_singleton {α : Type} {u front rest : List α} {s last : α}
    (split : u ++ [last] = front ++ s :: rest) :
    (∃ mid, u = front ++ s :: mid ∧ rest = mid ++ [last]) ∨ front = u ∧ s = last ∧ rest = [] := by
  rcases occurrence_append split with within | ⟨mid, rfl, behind⟩
  · exact .inl within
  · have behind' := List.append_eq_singleton_iff.1 behind.symm
    obtain ⟨rfl, rfl, rfl⟩ : mid = [] ∧ s = last ∧ rest = [] := by simpa using behind'
    exact .inr ⟨List.append_nil u, rfl, rfl⟩

namespace Grammar

variable {g : Grammar} {head name : Symbol} {c c' p p' b : Body}
  {before before' after after' front rest : List Symbol}

theorem follows_of_unfolded {inner t : Symbol} (inside : c ∈ g.bodies head)
    (symbols : Body.symbols c = before ++ inner :: after) (body : p ∈ g.bodies inner)
    (split : before ++ (Body.symbols p ++ after) = front ++ name :: rest)
    (called : g.Predicts head rest t) : g.Follows name t := by
  rcases occurrence_append split with ⟨mid, rfl, rfl⟩ | ⟨mid, rfl, later⟩
  · rw [List.append_assoc, List.cons_append] at symbols
    exact follows_of_predicts inside symbols (called.append_left (Predicts.of_mem_bodies body))
  · rcases occurrence_append later with ⟨mid', found, rfl⟩ | ⟨mid', rfl, rfl⟩
    · exact follows_of_predicts body found (called.of_append (follows_of_predicts inside symbols))
    · rw [← List.cons_append, ← List.append_assoc] at symbols
      exact follows_of_predicts inside symbols called

theorem head?_append_ne {x y : List Symbol} (differ : x.head? ≠ y.head?) (first : name ∉ x)
    (first' : name ∉ y) (after after' : List Symbol) :
    (x ++ name :: after).head? ≠ (y ++ name :: after').head? := by
  intro same
  cases x with
  | nil =>
      cases y with
      | nil => exact differ rfl
      | cons s y =>
          obtain rfl : name = s := by simpa using same
          exact first' List.mem_cons_self
  | cons r x =>
      cases y with
      | nil =>
          obtain rfl : r = name := by simpa using same
          exact first List.mem_cons_self
      | cons s y => exact differ same

theorem exists_shared_before (after : List Symbol) {v : List Symbol}
    (other : ∀ rest, v ≠ before ++ name :: rest) :
    ∃ shared x y, before = shared ++ x ∧ v = shared ++ y ∧
      (x ++ name :: after).head? ≠ y.head? := by
  induction before generalizing v with
  | nil =>
      refine ⟨[], [], v, rfl, rfl, fun same => ?_⟩
      cases v with
      | nil => simp at same
      | cons s v =>
          obtain rfl : name = s := by simpa using same
          exact other v rfl
  | cons s before ih =>
      by_cases same : v.head? = some s
      · obtain ⟨v, rfl⟩ := List.head?_eq_some_iff.1 same
        have shorter : ∀ rest, v ≠ before ++ name :: rest := fun rest equal =>
          other rest (by rw [equal, List.cons_append])
        obtain ⟨shared, x, y, rfl, rfl, differ⟩ := ih shorter
        exact ⟨s :: shared, x, y, rfl, rfl, differ⟩
      · exact ⟨[], s :: before, v, rfl, rfl, fun equal => same (by simpa using equal.symm)⟩

namespace Separated

variable (separated : g.Separated) (valid : g.WellFormed)

include separated

theorem apart_expand (body : p ∈ g.bodies name) (body' : p' ∈ g.bodies name)
    (apart : g.Apart head after after')
    (behind : ∀ t, g.Predicts head after t → g.Follows name t)
    (behind' : ∀ t, g.Predicts head after' t → g.Follows name t)
    (known : ∀ s ∈ Body.symbols p ++ after, s ∈ g.allSymbols) :
    g.Apart head (Body.symbols p ++ after) (Body.symbols p' ++ after') := by
  obtain ⟨shared, x, y, left, right, parted⟩ := exists_shared (Body.symbols p) (Body.symbols p')
  rw [left, List.append_assoc] at known
  rw [left, right, List.append_assoc, List.append_assoc, apart_append_left_iff]
  rcases parted with differ | ⟨rfl, rfl⟩
  · have disjoint := separated.apart name p body p' body' shared x y left right differ
    apply Disjoint.apart separated.productive
    · exact disjoint.imp (fun t called => called.of_append (behind t))
        (fun t called => called.of_append (behind' t))
    · exact fun s among => known s (List.mem_append_right shared among)
  · exact apart

include valid

theorem apart_unfolded (inside : c ∈ g.bodies head) (inside' : c' ∈ g.bodies head)
    (symbols : Body.symbols c = before ++ name :: after) (first : name ∉ before)
    (symbols' : Body.symbols c' = before' ++ name :: after') (first' : name ∉ before')
    (body : p ∈ g.bodies name) (body' : p' ∈ g.bodies name) :
    g.Apart head (before ++ (Body.symbols p ++ after)) (before' ++ (Body.symbols p' ++ after')) := by
  have apart := separated.apart head c inside c' inside'
  have known : ∀ s ∈ before ++ (Body.symbols p ++ after), s ∈ g.allSymbols := by
    have outer := (valid.fits head c inside).2
    rw [symbols] at outer
    have inner := (valid.fits name p body).2
    rw [List.forall_mem_append, List.forall_mem_cons] at outer
    simp only [List.forall_mem_append]
    exact ⟨outer.1, inner, outer.2.2⟩
  rw [symbols, symbols'] at apart
  obtain ⟨shared, x, y, rfl, rfl, parted⟩ := exists_shared before before'
  rw [List.append_assoc] at known
  simp only [List.append_assoc] at apart ⊢
  rcases parted with differ | ⟨rfl, rfl⟩
  · have differ' := head?_append_ne differ (fun among => first (List.mem_append_right shared among))
      (fun among => first' (List.mem_append_right shared among)) after after'
    refine apart.replace separated.productive differ' (fun t called => ?_) (fun t called => ?_) ?_
    · exact called.append_left (Predicts.of_mem_bodies body)
    · exact called.append_left (Predicts.of_mem_bodies body')
    · exact fun s among => known s (List.mem_append_right shared among)
  · simp only [List.append_nil, List.nil_append] at symbols symbols' apart known ⊢
    rw [apart_append_left_iff] at apart ⊢
    have rests : g.Apart head ([name] ++ after) ([name] ++ after') := apart
    apply separated.apart_expand body body' (apart_append_left_iff.1 rests)
    · exact fun t called => follows_of_predicts inside symbols called
    · exact fun t called => follows_of_predicts inside' symbols' called
    · exact fun s among => known s (List.mem_append_right shared among)

theorem apart_unfolded_kept (inside : c ∈ g.bodies head)
    (symbols : Body.symbols c = before ++ name :: after) (body : p ∈ g.bodies name)
    (kept : b ∈ g.bodies head) (other : ∀ rest, Body.symbols b ≠ before ++ name :: rest) :
    g.Apart head (before ++ (Body.symbols p ++ after)) (Body.symbols b) := by
  have apart := separated.apart head b kept c inside
  have known := (valid.fits head b kept).2
  obtain ⟨shared, x, y, rfl, right, differ⟩ := exists_shared_before after other
  rw [right] at known
  rw [symbols, right, List.append_assoc] at apart
  rw [right, List.append_assoc]
  refine (apart.replace separated.productive differ.symm (fun t called => called)
    (fun t called => ?_) ?_).symm
  · exact called.append_left (Predicts.of_mem_bodies body)
  · exact fun s among => known s (List.mem_append_right shared among)

end Separated

/-- `g'` is a grammar in which some of the bodies of `head` are unfolded at the first occurrence of
`name`. -/
structure Unfolded (g g' : Grammar) (head name : Symbol) (chosen : List Body) : Prop where
  names : g'.names = g.names
  origin : ∀ other, ∀ b ∈ g'.bodies other,
    (b ∈ g.bodies other ∧ (other = head → b ∉ chosen)) ∨
      other = head ∧ ∃ c ∈ chosen, c ∈ g.bodies head ∧ ∃ before after, ∃ p ∈ g.bodies name,
        Body.symbols c = before ++ name :: after ∧ name ∉ before ∧
          Body.symbols b = before ++ (Body.symbols p ++ after)

theorem unfolded_setBodies {chosen : List Body} {expand : Body → List Body}
    (known : head ∈ g.names) (chosenBodies : ∀ c ∈ chosen, c ∈ g.bodies head)
    (unfolds : ∀ c ∈ chosen, g.Unfolds name c (expand c)) :
    g.Unfolded (g.setBodies head (replaceBodies (g.bodies head) chosen expand)) head name chosen where
  names := names_setBodies g head _
  origin other b inside := by
    rw [bodies_setBodies known] at inside
    split at inside
    case isFalse differs => exact .inl ⟨inside, fun same => absurd same differs⟩
    case isTrue same =>
      subst same
      rcases mem_of_mem_replaceBodies inside with ⟨old, left⟩ | ⟨c, among, added⟩
      · exact .inl ⟨old, fun _ => left⟩
      · exact .inr ⟨rfl, c, among, chosenBodies c among, (unfolds c among).symbols_of_mem added⟩

namespace Unfolded

variable {g' : Grammar} {chosen : List Body} (unfolded : g.Unfolded g' head name chosen)
  (valid : g.WellFormed) (preserved : g.Preserves g')

include unfolded preserved

theorem productive (productive : g.Productive) : g'.Productive :=
  preserved.productive_of_names productive unfolded.names

theorem symbols_known {other : Symbol} (inside : b ∈ g'.bodies other) :
    ∀ s ∈ Body.symbols b, s ∈ g.allSymbols := by
  intro s among
  have known := (preserved.wellFormed.fits other b inside).2 s among
  rwa [mem_allSymbols, unfolded.names, preserved.terminals, ← mem_allSymbols] at known

include valid

theorem follows (productive : g.Productive) {other t : Symbol} (behind : g'.Follows other t) :
    g.Follows other t := by
  refine behind.of_closed ?_ fun head' b front other rest t inside split called => ?_
  · rw [preserved.start]
    exact .start
  · have productive' := unfolded.productive preserved productive
    rcases unfolded.origin head' b inside with
      ⟨kept, -⟩ | ⟨rfl, c, -, old, before, after, p, body, whole, -, made⟩
    · exact preserved.follows_of_called valid productive productive' kept split called
    · have known := unfolded.symbols_known preserved inside
      rw [split, List.forall_mem_append, List.forall_mem_cons] at known
      rw [preserved.called_iff valid productive productive' known.2.2] at called
      exact follows_of_unfolded old whole body (made.symm.trans split) called

/-- Unfolding first occurrences keeps a grammar separated, if no body that has the same beginning up
to the occurrence is left alone. -/
theorem separated (separated : g.Separated)
    (left : ∀ b ∈ g.bodies head, b ∉ chosen → ∀ c ∈ chosen, ∀ before after rest,
      Body.symbols c = before ++ name :: after → name ∉ before →
        Body.symbols b ≠ before ++ name :: rest) : g'.Separated := by
  have productive := unfolded.productive preserved separated.productive
  refine ⟨productive, fun other b inside b' inside' => ?_⟩
  apply preserved.apart valid separated.productive productive
    (fun t => unfolded.follows valid preserved separated.productive)
    (unfolded.symbols_known preserved inside) (unfolded.symbols_known preserved inside')
  rcases unfolded.origin other b inside with
    ⟨kept, spared⟩ | ⟨rfl, c, among, old, before, after, p, body, whole, first, made⟩
  · rcases unfolded.origin other b' inside' with
      ⟨kept', -⟩ | ⟨rfl, c', among', old', before', after', p', body', whole', first', made'⟩
    · exact separated.apart other b kept b' kept'
    · rw [made']
      refine (separated.apart_unfolded_kept valid old' whole' body' kept ?_).symm
      exact fun rest => left b kept (spared rfl) c' among' before' after' rest whole' first'
  · rw [made]
    rcases unfolded.origin other b' inside' with
      ⟨kept', spared⟩ | ⟨-, c', among', old', before', after', p', body', whole', first', made'⟩
    · refine separated.apart_unfolded_kept valid old whole body kept' ?_
      exact fun rest => left b' kept' (spared rfl) c among before after rest whole first
    · rw [made']
      exact separated.apart_unfolded valid old old' whole first whole' first' body body'

end Unfolded

end Grammar

end Predictive
