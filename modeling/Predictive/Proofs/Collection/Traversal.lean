set_option autoImplicit false

namespace Predictive

variable {ε α β : Type}

theorem bind_eq_ok_iff {x : Except ε α} {f : α → Except ε β} {r : β} :
    x >>= f = .ok r ↔ ∃ a, x = .ok a ∧ f a = .ok r := by
  cases x with
  | error fault => simp [bind, Except.bind]
  | ok a => simp [bind, Except.bind]

theorem bind_eq_error_iff {x : Except ε α} {f : α → Except ε β} {e : ε} :
    x >>= f = .error e ↔ x = .error e ∨ ∃ a, x = .ok a ∧ f a = .error e := by
  cases x with
  | error fault => simp [bind, Except.bind]
  | ok a => simp [bind, Except.bind]

theorem pure_eq_ok_iff {a r : α} : (pure a : Except ε α) = .ok r ↔ a = r := by
  simp [pure, Except.pure]

theorem mapM_eq_ok {f : α → Except ε β} {l : List α} {r : List β} (done : l.mapM f = .ok r) :
    (∀ y ∈ r, ∃ x ∈ l, f x = .ok y) ∧ ∀ x ∈ l, ∃ y ∈ r, f x = .ok y := by
  induction l generalizing r with
  | nil =>
      obtain rfl : [] = r := by simpa [pure_eq_ok_iff] using done
      simp
  | cons x l ih =>
      rw [List.mapM_cons, bind_eq_ok_iff] at done
      obtain ⟨y, first, done⟩ := done
      obtain ⟨ys, rest, done⟩ := bind_eq_ok_iff.1 done
      obtain rfl := pure_eq_ok_iff.1 done
      obtain ⟨left, right⟩ := ih rest
      refine ⟨fun z inside => ?_, fun z inside => ?_⟩
      · rcases List.mem_cons.1 inside with rfl | inside
        · exact ⟨x, List.mem_cons_self, first⟩
        · obtain ⟨w, within, made⟩ := left z inside
          exact ⟨w, List.mem_cons_of_mem x within, made⟩
      · rcases List.mem_cons.1 inside with rfl | inside
        · exact ⟨y, List.mem_cons_self, first⟩
        · obtain ⟨w, within, made⟩ := right z inside
          exact ⟨w, List.mem_cons_of_mem y within, made⟩

theorem exists_mapM_eq_ok {f : α → Except ε β} {l : List α} (each : ∀ x ∈ l, ∃ y, f x = .ok y) :
    ∃ r, l.mapM f = .ok r := by
  induction l with
  | nil => exact ⟨[], rfl⟩
  | cons x l ih =>
      obtain ⟨first, rest⟩ := List.forall_mem_cons.1 each
      obtain ⟨y, made⟩ := first
      obtain ⟨ys, done⟩ := ih rest
      refine ⟨y :: ys, ?_⟩
      rw [List.mapM_cons, made, done]
      rfl

/-- `FirstAt P l above x`: the element `x` of `l`, with `above` before it, is the first that `P` holds
of, with regard to what is before it. -/
structure FirstAt (P : List α → α → Prop) (l above : List α) (x : α) : Prop where
  listed : ∃ below, l = above ++ x :: below
  holds : P above x
  earlier : ∀ before y between, above = before ++ y :: between → ¬ P before y

theorem not_firstAt_nil {P : List α → α → Prop} {above : List α} {x : α} : ¬ FirstAt P [] above x := by
  intro first
  obtain ⟨below, split⟩ := first.listed
  simp at split

theorem firstAt_cons_iff {P : List α → α → Prop} {x y : α} {l above : List α} :
    FirstAt P (x :: l) above y ↔ above = [] ∧ y = x ∧ P [] x ∨
      ∃ rest, above = x :: rest ∧ ¬ P [] x ∧ FirstAt (fun before => P (x :: before)) l rest y := by
  constructor
  · intro first
    obtain ⟨below, split⟩ := first.listed
    cases above with
    | nil =>
        obtain ⟨rfl, rfl⟩ := List.cons.inj split
        exact .inl ⟨rfl, rfl, first.holds⟩
    | cons z rest =>
        obtain ⟨rfl, later⟩ := List.cons.inj split
        refine .inr ⟨rest, rfl, first.earlier [] x rest rfl, ⟨below, later⟩, first.holds, ?_⟩
        intro before z between same
        exact first.earlier (x :: before) z between (congrArg (x :: ·) same)
  · intro found
    rcases found with ⟨rfl, rfl, holds⟩ | ⟨rest, rfl, other, first⟩
    · exact ⟨⟨l, rfl⟩, holds, by simp⟩
    · obtain ⟨below, split⟩ := first.listed
      refine ⟨⟨below, congrArg (x :: ·) split⟩, first.holds, ?_⟩
      intro before z between same
      cases before with
      | nil =>
          obtain ⟨rfl, -⟩ := List.cons.inj same
          exact other
      | cons w before =>
          obtain ⟨rfl, later⟩ := List.cons.inj same
          exact first.earlier before z between later

theorem exists_firstAt_cons_iff {P Q : List α → α → Prop} {x : α} {l : List α} :
    (∃ above y, FirstAt P (x :: l) above y ∧ Q above y) ↔ P [] x ∧ Q [] x ∨
      ¬ P [] x ∧ ∃ above y, FirstAt (fun before => P (x :: before)) l above y ∧ Q (x :: above) y := by
  simp only [firstAt_cons_iff]
  constructor
  · intro found
    obtain ⟨_, _, ⟨rfl, rfl, holds⟩ | ⟨above, rfl, other, first⟩, that⟩ := found
    · exact .inl ⟨holds, that⟩
    · exact .inr ⟨other, above, _, first, that⟩
  · intro found
    rcases found with ⟨holds, that⟩ | ⟨other, above, y, first, that⟩
    · exact ⟨[], x, .inl ⟨rfl, rfl, holds⟩, that⟩
    · exact ⟨x :: above, y, .inr ⟨above, rfl, other, first⟩, that⟩

theorem exists_firstAt {P : List α → α → Prop} {x : α} {above below : List α} (holds : P above x) :
    ∃ before y, FirstAt P (above ++ x :: below) before y := by
  induction above generalizing P with
  | nil => exact ⟨[], x, ⟨below, rfl⟩, holds, by simp⟩
  | cons z above ih =>
      by_cases first : P [] z
      · exact ⟨[], z, ⟨above ++ x :: below, rfl⟩, first, by simp⟩
      · obtain ⟨before, y, later⟩ := ih (P := fun before => P (z :: before)) holds
        exact ⟨z :: before, y, firstAt_cons_iff.2 (.inr ⟨before, rfl, first, later⟩)⟩

theorem mapM_eq_error_iff {f : α → Except ε β} {l : List α} {e : ε} :
    l.mapM f = .error e ↔
      ∃ above x, FirstAt (fun _ x => ∃ fault, f x = .error fault) l above x ∧ f x = .error e := by
  induction l with
  | nil => exact iff_of_false (by simp [pure, Except.pure]) fun ⟨_, _, first, _⟩ => not_firstAt_nil first
  | cons x l ih =>
      rw [exists_firstAt_cons_iff, ← ih, List.mapM_cons,
        bind_eq_error_iff]
      cases made : f x with
      | error fault => simp
      | ok r => simp [bind_eq_error_iff, pure, Except.pure]

theorem exists_foldlM_eq_ok {σ : Type} {f : σ → α → Except ε σ} {I : σ → Prop} {l : List α}
    (each : ∀ x ∈ l, ∀ a, I a → ∃ b, f a x = .ok b ∧ I b) {s : σ} (inv : I s) :
    ∃ r, l.foldlM f s = .ok r ∧ I r := by
  induction l generalizing s with
  | nil => exact ⟨s, rfl, inv⟩
  | cons x l ih =>
      obtain ⟨first, others⟩ := List.forall_mem_cons.1 each
      obtain ⟨next, done, inv'⟩ := first s inv
      obtain ⟨r, later, inv''⟩ := ih others inv'
      refine ⟨r, ?_, inv''⟩
      rw [List.foldlM_cons, done]
      exact later

theorem exists_foldlM_of_prefix {σ : Type} {f : σ → α → Except ε σ} {I : List α → σ → Prop}
    {l : List α} (each : ∀ above x below, l = above ++ x :: below →
      ∀ s, I above s → ∃ next, f s x = .ok next ∧ I (above ++ [x]) next) {s : σ} (start : I [] s) :
    ∃ r, l.foldlM f s = .ok r ∧ I l r := by
  have run (above below : List α) (split : l = above ++ below) (s : σ) (inv : I above s) :
      ∃ r, below.foldlM f s = .ok r ∧ I l r := by
    induction below generalizing above s with
    | nil =>
        rw [List.append_nil] at split
        exact ⟨s, rfl, split ▸ inv⟩
    | cons x below ih =>
        obtain ⟨next, done, inv'⟩ := each above x below split s inv
        obtain ⟨r, later, whole⟩ := ih (above ++ [x]) (by simpa using split) next inv'
        refine ⟨r, ?_, whole⟩
        rw [List.foldlM_cons, done]
        exact later
  exact run [] l rfl s start

/-- A state that is taken through a list by steps that keep an invariant and go up in an order ends
above where it began, with everything that a step achieves and later steps keep. -/
theorem foldlM_spec {σ : Type} {f : σ → α → Except ε σ} {I : σ → Prop} {R : σ → σ → Prop}
    {Q : α → σ → Prop} {l : List α} {origin s : σ} (refl : ∀ a, R a a)
    (trans : ∀ {a b c}, R a b → R b c → R a c) (keep : ∀ {x a b}, R a b → Q x a → Q x b)
    (step : ∀ x ∈ l, ∀ a, I a → R origin a → ∃ b, f a x = .ok b ∧ I b ∧ R a b ∧ Q x b)
    (inv : I s) (above : R origin s) :
    ∃ r, l.foldlM f s = .ok r ∧ I r ∧ R s r ∧ ∀ x ∈ l, Q x r := by
  induction l generalizing s with
  | nil => exact ⟨s, rfl, inv, refl s, by simp⟩
  | cons x l ih =>
      obtain ⟨next, first, inv', up, reached⟩ := step x List.mem_cons_self s inv above
      obtain ⟨r, done, inv'', later, all⟩ :=
        ih (fun y inside => step y (List.mem_cons_of_mem x inside)) inv' (trans above up)
      refine ⟨r, ?_, inv'', trans up later, List.forall_mem_cons.2 ⟨keep later reached, all⟩⟩
      rw [List.foldlM_cons, first]
      exact done

end Predictive
